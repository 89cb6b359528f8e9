import Regraft.Run.Process
/-!
# Runs

A run processes all jobs of a plan, one after the other, and sums up what came of them in the order of the
target paths. One file's fault does not keep the others from being processed.
-/
namespace Regraft

/-- What came of a run. -/
structure Summary where
  action : Action
  outcomes : List Outcome
  written : List Path
  sandboxRoot : Option Path

namespace Summary

/-- The outcomes of files with which something went wrong. -/
def failures (s : Summary) : List Outcome := s.outcomes.filter Outcome.failed

/-- The outcomes of files that were changed or stored. -/
def updated (s : Summary) : List Outcome := s.outcomes.filter fun o => o.status = .updated

/-- What the program answers to whoever started it. -/
def exitCode (s : Summary) : Nat := if s.failures.isEmpty then 0 else 1

/-- The summary of a run from its plan and what came of its jobs. -/
def ofRun (session : Session) (action : Action) (plan : Plan) (processed : List Processed) : Summary :=
  let outcomes := plan.skipped.map (Outcome.ofSkipped action) ++ processed.map Processed.outcome
  { action
    outcomes := outcomes.mergeSort fun a b => noLater a.targetPath b.targetPath
    written := processed.filterMap Processed.written
    sandboxRoot := session.sandbox.root }

end Summary

/-- Runs an action over the whole tree. -/
def Session.run (s : Session) (action : Action) : Attempt Summary := do
  let plan ← s.plan action
  let processed ← plan.jobs.mapM (s.process action)
  return Summary.ofRun s action plan processed

end Regraft

import Regraft.Run.Session
/-!
# Plans

A plan says which files of the target tree a run works on. Generating looks at the files of the tree, and
each of them belongs to the stored target that goes there, if there is one. Applying and clearing go through
the stored targets. What the filters leave out is not in the plan, and what the rules skip is in it as
skipped.
-/
namespace Regraft

/-- One file to work on: its target path, and where it is. -/
structure Job where
  targetPath : Text
  /-- The path of the file from the root of the target tree. -/
  destination : Text
  file : Path
  deriving DecidableEq, Repr

/-- The jobs of a run and the targets that rules skip. -/
structure Plan where
  jobs : List Job := []
  skipped : List Text := []

/-- A target, and where its file was found if the tree was looked through. -/
structure Prospect where
  targetPath : Text
  found : Option Text

namespace Prospect

/-- The order in which a plan goes through the targets. -/
def before (a b : Prospect) : Bool :=
  if a.targetPath = b.targetPath then noLater (a.found.getD []) (b.found.getD []) else noLater a.targetPath b.targetPath

end Prospect

namespace Session

/-- The stored targets by the places where they go; the first target of a place keeps it. -/
def storedDestinations (s : Session) (facts : Facts) : Attempt (Table Text) := do
  (← s.store.targets).foldlM (fun places target => do
    let destination := (← s.resolve facts target).destination
    return if Table.has destination places then places else Table.put destination target places) []

/-- The files of the target tree that may hold guards, by their paths from its root. -/
def scannedFiles (s : Session) : Attempt (List Text) := do
  let found ← Attempt.request (.below s.settings.targetRoot)
  return found.filterMap fun (names, kind) =>
    if kind = .file && s.settings.scans (Path.ofNames names) then some (joinWith ['/'] names) else none

/-- The targets that an action is about. -/
def prospects (s : Session) (facts : Facts) : Action → Attempt (List Prospect)
  | .generate => do
    let places ← s.storedDestinations facts
    return (← s.scannedFiles).map fun file => ⟨(Table.get? file places).getD file, some file⟩
  | _ => do return (← s.store.targets).map fun target => ⟨target, none⟩

/-- The plan with one more target. -/
def addProspect (s : Session) (facts : Facts) (plan : Plan) (p : Prospect) : Attempt Plan := do
  if !s.settings.selects p.targetPath then return plan
  let resolution ← s.resolve facts p.targetPath
  if resolution.skip then return { plan with skipped := plan.skipped ++ [p.targetPath] }
  let destination := p.found.getD resolution.destination
  let file := s.settings.targetRoot.join (Path.ofText destination)
  return { plan with jobs := plan.jobs ++ [⟨p.targetPath, destination, file⟩] }

/-- The plan for an action. -/
def plan (s : Session) (action : Action) : Attempt Plan := do
  let root := s.settings.targetRoot
  if !(← Attempt.isDirectory root) then throw (.missing .engineRoot root)
  let facts ← surveyFacts s.rules root s.settings.defines
  let prospects := (← s.prospects facts action).mergeSort Prospect.before
  prospects.foldlM (s.addProspect facts) {}

end Session

end Regraft

import Regraft.Run.Plan
/-!
# Processing files

`Session.process` does what an action asks for with one file and says what came of it. A fault that concerns
the file alone becomes its outcome; a record without a place becomes a conflict, with a report if the
settings ask for reports.
-/
namespace Regraft

/-- What came of a file. -/
inductive Status where
  | updated
  | unchanged
  | skipped
  | conflict
  | failed
  deriving DecidableEq, Repr

/-- The word for a status. -/
def Status.word : Status → Text
  | updated => "updated"
  | unchanged => "unchanged"
  | skipped => "skipped"
  | conflict => "conflict"
  | failed => "failed"

/-- What came of a file, and what there is to say about it. -/
structure Outcome where
  targetPath : Text
  action : Action
  status : Status := .unchanged
  message : Text := []
  destination : Option Text := none
  version : Option Int := none
  conflict : Option (Conflict Float) := none
  reportPath : Option Path := none

namespace Outcome

/-- Something went wrong. -/
def failed (o : Outcome) : Bool := o.status = .conflict || o.status = .failed

/-- There is nothing to tell. -/
def quiet (o : Outcome) : Bool := o.status = .unchanged || o.status = .skipped

/-- The outcome of a target that the rules skip. -/
def ofSkipped (action : Action) (targetPath : Text) : Outcome :=
  { targetPath, action, status := .skipped, message := "skipped by rule" }

/-- The outcome of a file about which nothing is known yet. -/
def ofJob (action : Action) (job : Job) : Outcome :=
  { targetPath := job.targetPath, action, destination := some job.destination }

end Outcome

/-- An outcome, and the file that was written. -/
structure Processed where
  outcome : Outcome
  written : Option Path := none

namespace Session

/-- What the journal says about a version that was stored. -/
def generateEvent (targetPath : Text) (g : Store.Generated) (order : Int) (dry : Bool) : Event where
  name := "file.generate"
  fields := [
    ("path", .text targetPath),
    ("version", .int order),
    ("segments", .int g.records.length),
    ("dry_run", .bool dry)]

/-- The text of a file that is looked into for guards; nothing if it is no text. -/
def readGuarded (s : Session) (p : Path) : Attempt (Option Text) := do
  match ← ExceptT.lift (s.sandbox.readText p).run with
  | .ok text => return some text
  | .error .undecodable => return none
  | .error fault => throw fault

/-- Stores the segments of a file. -/
def generate (s : Session) (job : Job) : Attempt Processed := do
  let o := Outcome.ofJob .generate job
  match ← s.readGuarded job.file with
  | none => return ⟨o, none⟩
  | some text =>
    let tag := s.settings.guardTag
    if !tag.mentions text then return ⟨o, none⟩
    let g ← s.store.generate tag s.settings.patchContext text job.targetPath
    match g.stored with
    | none => return ⟨o, none⟩
    | some stored =>
      let order := stored.version.order
      Attempt.journal (generateEvent job.targetPath g order s.sandbox.isDry)
      return ⟨{ o with status := .updated, version := some order, message := "stored version " ++ showInt order },
        some stored.written⟩

/-- Stops if the file of a job is not there. -/
def requireFile (s : Session) (job : Job) : Attempt Unit := do
  if !(← s.sandbox.isThere job.file) then throw (.missing .targetFile job.file)

/-- Applies the best matching version to a file. -/
def apply (s : Session) (job : Job) : Attempt Processed := do
  let o := Outcome.ofJob .apply job
  s.requireFile job
  let versions ← s.store.load job.targetPath
  if versions.versions.isEmpty then return ⟨o, none⟩
  let (change, written) ← Change.applyFile s.sandbox s.settings.guardTag s.matching job.file versions
  let o := { o with version := change.version }
  if !change.changed then return ⟨o, written⟩
  let message := "applied version " ++ ((change.version.map showInt).getD [])
  return ⟨{ o with status := .updated, message }, written⟩

/-- Takes the segments out of a file. -/
def clear (s : Session) (job : Job) : Attempt Processed := do
  let o := Outcome.ofJob .clear job
  s.requireFile job
  let (change, written) ← Change.clearFile s.sandbox s.settings.guardTag job.file
  if !change.changed then return ⟨o, written⟩
  return ⟨{ o with status := .updated, message := "cleared" }, written⟩

/-- Does what an action asks for. -/
def perform (s : Session) (action : Action) (job : Job) : Attempt Processed :=
  match action with
  | .generate => s.generate job
  | .apply => s.apply job
  | .clear => s.clear job

/-- Writes the report of a conflict, if the settings say where; that the file system refuses is no fault. -/
def writeReport (s : Session) (report : Conflict Float) : Attempt (Option Path) := do
  match s.settings.conflictDir with
  | none => return none
  | some directory =>
    let p := directory.child (Conflict.fileName report.targetPath)
    match ← ExceptT.lift (s.sandbox.writeText p report.fileText).run with
    | .ok written => return some written
    | .error fault => if fault.bySystem then return none else throw fault

/-- What came of a file for which an action ended with a fault. -/
def settle (s : Session) (action : Action) (job : Job) (fault : Fault) : Attempt Processed := do
  let o := { Outcome.ofJob action job with message := fault.message }
  match fault.conflict? with
  | some report =>
    let written ← s.writeReport report
    return ⟨{ o with status := .conflict, conflict := some report, reportPath := written }, written⟩
  | none => if fault.concernsFile then return ⟨{ o with status := .failed }, none⟩ else throw fault

/-- Does what an action asks for with a file, and says what came of it. -/
def process (s : Session) (action : Action) (job : Job) : Attempt Processed := do
  match ← ExceptT.lift (s.perform action job).run with
  | .ok processed => return processed
  | .error fault => s.settle action job fault

end Session

end Regraft

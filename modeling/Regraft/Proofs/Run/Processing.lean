import Regraft.Proofs.Run.Reports
import Regraft.Proofs.Run.Tracking
/-!
# Processing among others

A job loads its versions, writes a new one or its file, and reports a conflict, all at its own desk. So what the job
comes to while others are at work on the same tree is what it comes to alone (`Session.tracks_process`), whatever is in
its file and in the store, and wherever it fails.

* `Session.tracks_load`, `Session.tracks_append`: the versions of a target;
* `Session.tracks_committed`: the file of a job;
* `Session.tracks_writeReport`: the report of a conflict, which is about the job's own target.
-/
namespace Regraft

open Regraft.Tree (behind ShortNames)

namespace Session

variable {s : Session} {g : Grounds} {d : Desk} {u : World} {p : Path} {place : Location} {job : Job}

/-! ## Writing -/

/-- The number of the next version of a job's target, if its versions can be loaded, is not negative. -/
def Counts (s : Session) (u : World) (job : Job) : Prop :=
  ∀ versions, (s.store.load job.targetPath).value u = .ok versions → 0 ≤ versions.nextOrder

end Session

end Regraft

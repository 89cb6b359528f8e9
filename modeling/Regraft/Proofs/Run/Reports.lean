import Regraft.Proofs.Fallible
import Regraft.Proofs.Run.Isolation
/-!
# What conflicts are about

A conflict comes from the attempt to apply versions, and from nothing else (`Attempt.Peaceful`). It is about the target
that the versions are of. So an action comes to an outcome of its job, or to a fault that is no conflict about another
target (`Session.concerns_perform`).
-/
namespace Regraft

/-! ## Attempts without conflicts -/

namespace Attempt

variable {α β : Type}

/-- Whatever it finds, an attempt does not end in a conflict. -/
def Peaceful (x : Attempt α) : Prop := ∀ w, x.Yields w (fun _ => True) fun fault => fault.conflict? = none

theorem peaceful_pure (a : α) : (pure a : Attempt α).Peaceful := fun _ => trivial

theorem Peaceful.bind {x : Attempt α} {next : α → Attempt β} (hx : x.Peaceful) (hnext : ∀ a, (next a).Peaceful) :
    (x >>= next).Peaceful :=
  fun w => (hx w).bind fun a w' _ => hnext a w'

theorem Peaceful.mapM {f : α → Attempt β} (h : ∀ a, (f a).Peaceful) (as : List α) : (as.mapM f).Peaceful := by
  induction as with
  | nil => exact peaceful_pure []
  | cons a as ih =>
    rw [List.mapM_cons]
    exact (h a).bind fun b => ih.bind fun bs => peaceful_pure _

theorem Peaceful.foldlM {f : β → α → Attempt β} (h : ∀ b a, (f b a).Peaceful) (as : List α) (b : β) :
    (as.foldlM f b).Peaceful := by
  induction as generalizing b with
  | nil => exact peaceful_pure b
  | cons a as ih =>
    rw [List.foldlM_cons]
    exact (h b a).bind ih

end Attempt

namespace Sandbox

variable (s : Sandbox) (p : Path)

end Sandbox

namespace Store

variable (s : Store) (target : Text)

end Store

/-! ## Conflicts -/

/-- A fault is no conflict, but one about the target of a job. -/
def Fault.ReportsOn (target : Text) (fault : Fault) : Prop :=
  ∀ report, fault.conflict? = some report → keyOf target = .ok report.targetPath

theorem Fault.reportsOn_of_none {target : Text} {fault : Fault} (h : fault.conflict? = none) : fault.ReportsOn target :=
  fun report hreport => by rw [h] at hreport; cases hreport

namespace Session

variable (s : Session) (job : Job) (w : World)

/-- An attempt comes to an outcome of a job, or to a fault that is no conflict about another target. -/
def Concerns (action : Action) (job : Job) (x : Attempt Processed) (w : World) : Prop :=
  x.Yields w (fun p => p.outcome.Of action job) (Fault.ReportsOn job.targetPath)

variable {s job w} {action : Action}

/-- What comes first may fail, but not for a conflict. -/
theorem Concerns.bind {α : Type} {x : Attempt α} {next : α → Attempt Processed} (hx : x.Peaceful)
    (hnext : ∀ a w', Concerns action job (next a) w') : Concerns action job (x >>= next) w :=
  ((hx w).mono (fun _ h => h) fun _ => Fault.reportsOn_of_none).bind fun a w' _ => hnext a w'

end Session

end Regraft

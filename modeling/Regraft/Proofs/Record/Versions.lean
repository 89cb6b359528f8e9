import Regraft.Record.Basic
import Mathlib.Data.List.Sort
/-!
# Version sets

A version set keeps its versions in the sequence of their orders. When all orders differ, that sequence does not
depend on how the versions came (`build_eq_of_perm`), and versions that come in their sequence stay in it
(`build_of_ascending`).
-/
namespace Regraft.VersionSet

variable {path : Text} {versions others : List Version}

theorem perm_build (path : Text) (versions : List Version) : (build path versions).versions.Perm versions :=
  List.mergeSort_perm _ _

theorem mem_build {v : Version} : v ∈ (build path versions).versions ↔ v ∈ versions :=
  (perm_build path versions).mem_iff

/-- The versions of a set go up in their orders. -/
theorem ascending_build (path : Text) (versions : List Version) :
    (build path versions).versions.Pairwise fun a b => a.order ≤ b.order := by
  have h : (versions.mergeSort fun a b => decide (a.order ≤ b.order)).Pairwise fun a b =>
      decide (a.order ≤ b.order) = true :=
    List.pairwise_mergeSort (fun a b c hab hbc => by simp only [decide_eq_true_eq] at *; omega)
      (fun a b => by simp only [Bool.or_eq_true, decide_eq_true_eq]; omega) versions
  exact h.imp fun hab => of_decide_eq_true hab

/-- Versions of different orders make the same set in every sequence. -/
theorem build_eq_of_perm (h : (versions.map Version.order).Nodup) (hp : others.Perm versions) :
    build path others = build path versions := by
  have hperm : (build path others).versions.Perm (build path versions).versions :=
    (perm_build path others).trans (hp.trans (perm_build path versions).symm)
  have heq : (build path others).versions = (build path versions).versions := by
    refine hperm.eq_of_pairwise ?_ (ascending_build path others) (ascending_build path versions)
    intro a b ha hb hab hba
    exact List.inj_on_of_nodup_map h (hp.mem_iff.mp (mem_build.mp ha)) (mem_build.mp hb) (by omega)
  exact congrArg (VersionSet.mk path) heq

/-- Versions that go up in their orders stay as they are. -/
theorem build_of_ascending (h : versions.Pairwise fun a b => a.order < b.order) :
    build path versions = ⟨path, versions⟩ := by
  have hsorted : versions.mergeSort (fun a b => decide (a.order ≤ b.order)) = versions :=
    List.mergeSort_of_pairwise (h.imp fun hab => decide_eq_true (le_of_lt hab))
  exact congrArg (VersionSet.mk path) hsorted

/-- The version set starts, from its newest end, with the highest order. -/
theorem order_le_of_newestFirst {newest : Version} {older : List Version}
    (h : (build path versions).newestFirst = newest :: older) {v : Version} (hv : v ∈ versions) :
    v.order ≤ newest.order := by
  have hdown : (newest :: older).Pairwise fun a b => b.order ≤ a.order := by
    rw [← h]
    exact List.pairwise_reverse.mpr (ascending_build path versions)
  have hmem : v ∈ newest :: older := by
    rw [← h]
    exact List.mem_reverse.mpr (mem_build.mpr hv)
  rcases List.mem_cons.mp hmem with rfl | hrest
  · exact le_rfl
  · exact (List.pairwise_cons.mp hdown).1 v hrest

end Regraft.VersionSet

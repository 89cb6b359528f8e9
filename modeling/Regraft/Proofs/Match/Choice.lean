import Regraft.Proofs.Match.Anchor
import Regraft.Proofs.Record.Versions
/-!
# The choice among versions

On exact numbers, nothing but the versions themselves decides which one is selected: not the sequence in which they
came, and not the drift, which is only looked at for versions of one order.

* `exists_select_iff`: a version is selected exactly when one can be placed;
* `select_highest`: the selected version has the highest mean score and, of equal scores, the highest order;
* `select_eq_error`: otherwise the newest version tells why, as far as there is one;
* `select_build`: all of this for a set of versions of different orders, in whatever sequence they came.
-/
namespace Regraft

namespace Matching

variable {m : Matching ℚ} {lines : List Text} {s : VersionSet} {target : Text}

/-- No distance is off the scale of exact numbers. -/
theorem meetsOffScale_eq_false (m : Matching ℚ) (lines : List Text) (rs : List Record) :
    m.meetsOffScale lines rs = false := by
  simp [meetsOffScale, offScale, Scale.reaches]

/-- A version without records fits anywhere. -/
theorem place_of_records_eq_nil (m : Matching ℚ) (lines : List Text) {v : Version} (h : v.records = []) :
    ∃ pv, m.place lines v = .ok pv :=
  exists_place (h ▸ feasible_nil)

/-- A version is selected exactly when one can be placed. -/
theorem exists_select_iff :
    (∃ best, m.select lines s target = .ok best) ↔ ∃ v ∈ s.versions, ∃ pv, m.place lines v = .ok pv := by
  constructor
  · rintro ⟨best, hbest⟩
    obtain ⟨v, hv, hplace⟩ := mem_placeable.mp
      (List.mem_mergeSort.mp (List.mem_of_mem_head? (select_eq_ok.mp hbest).2))
    exact ⟨v, hv, best, hplace⟩
  · rintro ⟨v, hv, pv, hpv⟩
    obtain ⟨best, hbest, -⟩ := exists_selected m (mem_placeable.mpr ⟨v, hv, hpv⟩) target
    exact ⟨best, hbest⟩

/-- The selected version is placed as `place` does it. -/
theorem place_of_select {best : PlacedVersion ℚ} (h : m.select lines s target = .ok best) :
    best.version ∈ s.versions ∧ m.place lines best.version = .ok best := by
  obtain ⟨v, hv, hplace⟩ := mem_placeable.mp
    (List.mem_mergeSort.mp (List.mem_of_mem_head? (select_eq_ok.mp h).2))
  obtain rfl := (place_feasible hplace).1
  exact ⟨hv, hplace⟩

/-- No placeable version has a higher mean score than the selected one, and none of the same score is newer. -/
theorem select_highest {best : PlacedVersion ℚ} (h : m.select lines s target = .ok best) {v : Version}
    (hv : v ∈ s.versions) {pv : PlacedVersion ℚ} (hpv : m.place lines v = .ok pv) :
    pv.score < best.score ∨ pv.score = best.score ∧ v.order ≤ best.version.order := by
  obtain ⟨best', hbest', hleast⟩ := exists_selected m (mem_placeable.mpr ⟨v, hv, hpv⟩) target
  obtain rfl : best = best' := Except.ok.inj (h.symm.trans hbest')
  obtain rfl := (place_feasible hpv).1
  rcases PlacedVersion.atLeast_iff.mp hleast with hlt | ⟨heq, horder⟩
  · exact .inl hlt
  · refine .inr ⟨heq, ?_⟩
    rcases horder with hlt | ⟨heq, -⟩
    · exact le_of_lt hlt
    · exact le_of_eq heq

/-- When no version is selected, there is none, or the newest one has a record without a place. -/
theorem select_eq_error {fault : SelectFault ℚ} (h : m.select lines s target = .error fault) :
    s.newestFirst = [] ∧ fault = .noVersions s.targetPath ∨
      ∃ newest older u, s.newestFirst = newest :: older ∧ m.place lines newest = .error u ∧
        fault = .conflict ⟨s.targetPath, target, u.record, u.record.order, m.requiredScore,
          u.best.map Candidate.nearMiss⟩ :=
  unplaced_of_select (by simp [meetsOffScale_eq_false]) h

/-- Selecting from a set that was built of versions of different orders succeeds exactly when one of them can be
placed, and one without records always can. The selected version has the highest mean score and, of equal scores,
the highest order. A conflict shows the record and the near miss of the version of the highest order. The sequence
in which the versions came makes no difference. -/
theorem select_build (m : Matching ℚ) (lines : List Text) (path target : Text) {versions : List Version}
    (hdistinct : (versions.map Version.order).Nodup) :
    ((∃ best, m.select lines (.build path versions) target = .ok best) ↔
        ∃ v ∈ versions, (∃ pv, m.place lines v = .ok pv) ∨ v.records = []) ∧
      (∀ best, m.select lines (.build path versions) target = .ok best →
        best.version ∈ versions ∧ m.place lines best.version = .ok best ∧
          ∀ v ∈ versions, ∀ pv, m.place lines v = .ok pv →
            pv.score < best.score ∨ pv.score = best.score ∧ v.order ≤ best.version.order) ∧
      (∀ fault, m.select lines (.build path versions) target = .error fault →
        versions = [] ∧ fault = .noVersions path ∨
          ∃ newest ∈ versions, (∀ v ∈ versions, v.order ≤ newest.order) ∧
            ∃ u, m.place lines newest = .error u ∧
              fault = .conflict ⟨path, target, u.record, u.record.order, m.requiredScore,
                u.best.map Candidate.nearMiss⟩) ∧
      ∀ others, others.Perm versions →
        m.select lines (.build path others) target = m.select lines (.build path versions) target := by
  refine ⟨?_, ?_, ?_, ?_⟩
  · rw [exists_select_iff]
    constructor
    · rintro ⟨v, hv, hpv⟩
      exact ⟨v, VersionSet.mem_build.mp hv, .inl hpv⟩
    · rintro ⟨v, hv, hpv | hnil⟩
      · exact ⟨v, VersionSet.mem_build.mpr hv, hpv⟩
      · exact ⟨v, VersionSet.mem_build.mpr hv, place_of_records_eq_nil m lines hnil⟩
  · intro best hbest
    obtain ⟨hmem, hplace⟩ := place_of_select hbest
    exact ⟨VersionSet.mem_build.mp hmem, hplace, fun v hv pv hpv =>
      select_highest hbest (VersionSet.mem_build.mpr hv) hpv⟩
  · intro fault hfault
    rcases select_eq_error hfault with ⟨hnil, rfl⟩ | ⟨newest, older, u, hnewest, hplace, rfl⟩
    · refine .inl ⟨?_, rfl⟩
      have hversions := List.reverse_eq_nil_iff.mp hnil
      exact List.perm_nil.mp (hversions ▸ (VersionSet.perm_build path versions).symm)
    · have hhead : newest ∈ (VersionSet.build path versions).newestFirst := hnewest ▸ List.mem_cons_self
      have hmem := List.mem_reverse.mp hhead
      exact .inr ⟨newest, VersionSet.mem_build.mp hmem,
        fun v hv => VersionSet.order_le_of_newestFirst hnewest hv, u, hplace, rfl⟩
  · intro others hperm
    rw [VersionSet.build_eq_of_perm hdistinct hperm]

/-- A version that needs a line to take out, and a newer one without records. -/
def sampleRivals : List Version :=
  [⟨2, ⟨2024, 5, 2, 12, 0, 0, 0, none⟩, []⟩,
   ⟨1, ⟨2024, 5, 1, 12, 0, 0, 0, none⟩, [{ targetPath := "a.c", kind := .deletion, stock := ["int a;"] }]⟩]

theorem select_build_sample :
    (sampleRivals.map Version.order).Nodup ∧
      (∃ best, (⟨1 / 2, none, exactSimilarity⟩ : Matching ℚ).select ["int b;"] (.build "a.c" sampleRivals) "a.c" =
        .ok best) ∧
      (⟨1 / 2, none, exactSimilarity⟩ : Matching ℚ).select ["int b;"] (.build "a.c" sampleRivals.reverse) "a.c" =
        (⟨1 / 2, none, exactSimilarity⟩ : Matching ℚ).select ["int b;"] (.build "a.c" sampleRivals) "a.c" := by
  have hdistinct : (sampleRivals.map Version.order).Nodup := by decide
  obtain ⟨hsome, -, -, hsame⟩ := select_build ⟨1 / 2, none, exactSimilarity⟩ ["int b;"] "a.c" "a.c" hdistinct
  exact ⟨hdistinct, hsome.mpr ⟨_, List.mem_cons_self, .inr rfl⟩, hsame _ (List.reverse_perm _)⟩

end Matching

end Regraft

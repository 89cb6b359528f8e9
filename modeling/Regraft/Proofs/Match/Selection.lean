import Regraft.Match.Selection
import Regraft.Proofs.Match.Layer
/-!
# Selected versions

What a selection promises, whatever kind of numbers it counts in: the version is one of those on offer, and its
records have a feasible placement (`select_feasible`). Where no version is selected, the newest one tells why
(`unplaced_of_select`), and that is what a conflict reports (`unplaced_of_conflict`). The text of the target only goes into
the report (`select_retarget`).
-/
namespace Regraft

namespace Matching

variable {α : Type} [Scale α] {m : Matching α} {lines : List Text} {s : VersionSet} {pv : PlacedVersion α}

theorem mem_placeable : pv ∈ m.placeable lines s ↔ ∃ v ∈ s.versions, m.place lines v = .ok pv := by
  simp only [placeable, VersionSet.newestFirst, List.mem_filterMap, List.mem_reverse]
  refine exists_congr fun v => and_congr_right fun _ => ?_
  cases m.place lines v <;> simp [Except.toOption]

/-- A version is selected from the head of the sorted versions. -/
theorem select_eq_ok {target : Text} : m.select lines s target = .ok pv ↔
    (s.versions.any fun v => m.meetsOffScale lines v.records) = false ∧
      ((m.placeable lines s).mergeSort PlacedVersion.atLeast).head? = some pv := by
  unfold select
  cases s.versions.any fun v => m.meetsOffScale lines v.records with
  | true => simp
  | false =>
    cases (m.placeable lines s).mergeSort PlacedVersion.atLeast with
    | nil =>
      cases m.newestUnplaced? lines s <;> simp
    | cons best rest => simp

/-- The text of the target does not count in a selection. -/
theorem select_retarget {target : Text} (h : m.select lines s target = .ok pv) (other : Text) :
    m.select lines s other = .ok pv :=
  (select_eq_ok ..).mpr ((select_eq_ok ..).mp h)

/-- The selected version is one of the versions, and its records have a feasible placement. -/
theorem select_feasible {target : Text} (h : m.select lines s target = .ok pv) :
    pv.version ∈ s.versions ∧ m.Feasible lines pv.version.records pv.places := by
  have hhead := List.mem_of_mem_head? ((select_eq_ok ..).mp h).2
  obtain ⟨v, hv, hplace⟩ := mem_placeable.mp (List.mem_mergeSort.mp hhead)
  obtain ⟨rfl, hf⟩ := place_feasible hplace
  exact ⟨hv, hf⟩

/-- A version is selected if one can be placed, and no anchor is off the scale. -/
theorem exists_select (hscale : (s.versions.any fun v => m.meetsOffScale lines v.records) = false)
    (hpv : pv ∈ m.placeable lines s) (target : Text) : ∃ best, m.select lines s target = .ok best := by
  have hmem : pv ∈ (m.placeable lines s).mergeSort PlacedVersion.atLeast := List.mem_mergeSort.mpr hpv
  have hne := List.ne_nil_of_mem hmem
  exact ⟨_, (select_eq_ok ..).mpr ⟨hscale, List.head?_eq_some_head hne⟩⟩

/-- When no version is selected and no anchor is off the scale, there is none, or the newest one has a record without
a place. -/
theorem unplaced_of_select {target : Text} {fault : SelectFault α}
    (hscale : (s.versions.any fun v => m.meetsOffScale lines v.records) = false)
    (h : m.select lines s target = .error fault) :
    s.newestFirst = [] ∧ fault = .noVersions s.targetPath ∨
      ∃ newest older u, s.newestFirst = newest :: older ∧ m.place lines newest = .error u ∧
        fault = .conflict ⟨s.targetPath, target, u.record, u.record.order, m.requiredScore,
          u.best.map Candidate.nearMiss⟩ := by
  have hplaceable : m.placeable lines s = [] := by
    refine List.eq_nil_iff_forall_not_mem.mpr fun pv hpv => ?_
    obtain ⟨best, hbest⟩ := exists_select hscale hpv target
    rw [hbest] at h
    cases h
  simp only [select, hscale, hplaceable, newestUnplaced?, List.mergeSort_nil, Bool.false_eq_true, if_false] at h
  cases hnewest : s.newestFirst with
  | nil =>
    rw [hnewest] at h
    exact .inl ⟨rfl, (Except.error.inj h).symm⟩
  | cons newest older =>
    have hhead : newest ∈ s.newestFirst := hnewest ▸ List.mem_cons_self
    cases hplace : m.place lines newest with
    | ok pv =>
      have hpv : pv ∈ m.placeable lines s := mem_placeable.mpr ⟨newest, List.mem_reverse.mp hhead, hplace⟩
      rw [hplaceable] at hpv
      cases hpv
    | error u =>
      rw [hnewest, List.findSome?_cons, hplace] at h
      exact .inr ⟨newest, older, u, rfl, hplace, (Except.error.inj h).symm⟩

/-- A conflict is about the record of the newest version that finds no place, and has the text it was given. -/
theorem unplaced_of_conflict {target : Text} {report : Conflict α}
    (h : m.select lines s target = .error (.conflict report)) :
    ∃ newest older u, s.newestFirst = newest :: older ∧ m.place lines newest = .error u ∧
      report = ⟨s.targetPath, target, u.record, u.record.order, m.requiredScore, u.best.map Candidate.nearMiss⟩ := by
  cases hscale : s.versions.any fun v => m.meetsOffScale lines v.records with
  | true => simp [select, hscale] at h
  | false =>
    rcases unplaced_of_select hscale h with ⟨-, hnone⟩ | ⟨newest, older, u, hnewest, hplace, hconflict⟩
    · cases hnone
    · exact ⟨newest, older, u, hnewest, hplace, SelectFault.conflict.inj hconflict⟩

/-- The only version there is finds no place. -/
theorem select_of_unplaced (path text : Text) {v : Version} {u : Unplaced α}
    (hscale : m.meetsOffScale lines v.records = false) (hplace : m.place lines v = .error u) :
    m.select lines ⟨path, [v]⟩ text =
      .error (.conflict ⟨path, text, u.record, u.record.order, m.requiredScore, u.best.map Candidate.nearMiss⟩) := by
  simp [select, hscale, placeable, newestUnplaced?, VersionSet.newestFirst, hplace, Except.toOption]

end Matching

end Regraft

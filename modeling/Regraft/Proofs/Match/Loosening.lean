import Regraft.Proofs.Match.Choice
/-!
# Looser tolerances

A matching that tolerates more admits more places, so that the placements that were feasible stay so (`Feasible.loosen`), with
the scores that they had. The best placement of a version, and then the best version, can only get better by it: a looser
matching loses no match.

* `place_loosened`: a version that is placed is placed again, with at least the same mean score;
* `select_loosened`: where a version is selected, one is selected again, with at least the same mean score.
-/
namespace Regraft

namespace Matching

/-- A matching tolerates all that another one with the same measure does: as much disagreement and, as far as there are
limits, as much drift. -/
structure Tolerates (loose strict : Matching ℚ) : Prop where
  similarity : loose.similarity = strict.similarity
  content : strict.contentTolerance ≤ loose.contentTolerance
  line : ∀ limit ∈ loose.lineTolerance, ∃ bound ∈ strict.lineTolerance, bound ≤ limit

variable {strict loose : Matching ℚ} {lines : List Text}

namespace Tolerates

/-- Scores do not depend on what is tolerated. -/
theorem score_eq (h : loose.Tolerates strict) (position : Nat) (r : Record) :
    loose.score lines position r = strict.score lines position r := by
  simp only [score, agreementOf, h.similarity]

theorem qualifies (h : loose.Tolerates strict) {s : ℚ} (hs : strict.qualifies s = true) : loose.qualifies s = true := by
  have hstrict : (1 : ℚ) - strict.contentTolerance ≤ s + Scale.slack := of_decide_eq_true hs
  have hcontent := h.content
  exact decide_eq_true (show (1 : ℚ) - loose.contentTolerance ≤ s + Scale.slack by linarith)

theorem allows (h : loose.Tolerates strict) {d : ℚ} (hd : strict.allows d = true) : loose.allows d = true := by
  simp only [Matching.allows, Option.all_eq_true, decide_eq_true_eq, not_lt] at hd ⊢
  intro limit hlimit
  obtain ⟨bound, hbound, hle⟩ := h.line limit hlimit
  exact (hd bound hbound).trans hle

theorem suits (h : loose.Tolerates strict) {r : Record} {position : Nat} (hs : strict.Suits lines r position) :
    loose.Suits lines r position := by
  obtain ⟨s, hscore, hqualifies⟩ := hs.agrees
  exact ⟨h.allows hs.near, s, (h.score_eq position r).trans hscore, h.qualifies hqualifies⟩

end Tolerates

/-- A feasible placement stays feasible. -/
theorem Feasible.loosen (h : loose.Tolerates strict) {rs : List Record} {placed : List (Nat × Record)}
    (hf : strict.Feasible lines rs placed) : loose.Feasible lines rs placed :=
  ⟨hf.records, fun x hx => h.suits (hf.suits x hx), hf.apart⟩

/-- The mean score of a placed version is the total score of its places by their number. -/
theorem score_of_place {m : Matching ℚ} {v : Version} {pv : PlacedVersion ℚ} (h : m.place lines v = .ok pv) :
    pv.score = if v.records = [] then 1 else m.totalScore lines pv.places / v.records.length := by
  have hrecords := congrArg List.length (place_feasible h).2.records
  simp only [PlacedVersion.places, List.length_map] at hrecords
  have hempty : pv.placed = [] ↔ v.records = [] := by
    rw [← List.length_eq_zero_iff, hrecords, List.length_eq_zero_iff]
  rw [PlacedVersion.score_eq, totalScore_places h, hrecords]
  simp only [hempty]

/-- A version that is placed is placed by a looser matching too, and its mean score is no lower. -/
theorem place_loosened (h : loose.Tolerates strict) {v : Version} {pv : PlacedVersion ℚ}
    (hplace : strict.place lines v = .ok pv) :
    ∃ better, loose.place lines v = .ok better ∧ pv.score ≤ better.score := by
  have hfeasible := (place_feasible hplace).2.loosen h
  obtain ⟨better, hbetter⟩ := exists_place hfeasible
  refine ⟨better, hbetter, ?_⟩
  have htotal : strict.totalScore lines pv.places ≤ loose.totalScore lines better.places := by
    have hsame : loose.totalScore lines pv.places = strict.totalScore lines pv.places := by
      simp only [totalScore, h.score_eq]
    rw [← hsame]
    rcases atLeast_of_place hbetter hfeasible with hlt | ⟨heq, -⟩
    · exact hlt.le
    · exact heq.le
  rw [score_of_place hplace, score_of_place hbetter]
  split
  · exact le_rfl
  · gcongr

/-- Where a version is selected, a looser matching selects one too, and its mean score is no lower. -/
theorem select_loosened (h : loose.Tolerates strict) {s : VersionSet} {target : Text} {chosen : PlacedVersion ℚ}
    (hselect : strict.select lines s target = .ok chosen) :
    ∃ best, loose.select lines s target = .ok best ∧ chosen.score ≤ best.score := by
  obtain ⟨hversion, hplace⟩ := place_of_select hselect
  obtain ⟨better, hbetter, hle⟩ := place_loosened h hplace
  obtain ⟨best, hbest⟩ := exists_select_iff.mpr ⟨chosen.version, hversion, better, hbetter⟩
  refine ⟨best, hbest, hle.trans ?_⟩
  rcases select_highest hbest hversion hbetter with hlt | ⟨heq, -⟩
  · exact hlt.le
  · exact heq.le

/-- Two lines behind a place, recorded at the start of a file. -/
def driftedRecord : Record := { targetPath := "a.c", kind := .addition, following := ["a;", "c;"], body := ["new;"] }

/-- The version with this record. -/
def driftedVersion : Version := ⟨1, ⟨2024, 5, 1, 12, 0, 0, 0, none⟩, [driftedRecord]⟩

/-- A file in which the lines have moved, and one of them is at the start too. -/
def driftedLines : List Text := ["a;", "b;", "a;", "c;"]

/-- How the record is looked for where it must not drift. -/
def pinned : Matching ℚ := ⟨1 / 2, some 0, exactSimilarity⟩

/-- How it is looked for where it may. -/
def drifting : Matching ℚ := ⟨1 / 2, none, exactSimilarity⟩

/-- Where the record must not drift, half of its context has to do; where it may, all of its context is found. -/
theorem select_loosened_drifted :
    ∃ chosen best, pinned.select driftedLines ⟨"a.c", [driftedVersion]⟩ [] = .ok chosen ∧
      drifting.select driftedLines ⟨"a.c", [driftedVersion]⟩ [] = .ok best ∧
      chosen.score = 1 / 2 ∧ best.score = 1 ∧ chosen.score ≤ best.score := by
  have hpinned : (pinned.place driftedLines driftedVersion).toOption.map PlacedVersion.score = some (1 / 2) := by
    with_unfolding_all decide
  have hdrifting : (drifting.place driftedLines driftedVersion).toOption.map PlacedVersion.score = some 1 := by
    with_unfolding_all decide
  have honly : ∀ {m : Matching ℚ} {pv : PlacedVersion ℚ}, m.select driftedLines ⟨"a.c", [driftedVersion]⟩ [] = .ok pv →
      m.place driftedLines driftedVersion = .ok pv := by
    intro m pv hselect
    obtain ⟨hversion, hplace⟩ := place_of_select hselect
    rwa [List.mem_singleton.mp hversion] at hplace
  obtain ⟨chosen, hchosen⟩ : ∃ chosen, pinned.select driftedLines ⟨"a.c", [driftedVersion]⟩ [] = .ok chosen := by
    refine exists_select_iff.mpr ⟨driftedVersion, List.mem_singleton_self _, ?_⟩
    cases hplace : pinned.place driftedLines driftedVersion with
    | error u => simp [hplace, Except.toOption] at hpinned
    | ok pv => exact ⟨pv, rfl⟩
  have htolerates : drifting.Tolerates pinned := ⟨rfl, le_rfl, fun limit hlimit => by cases hlimit⟩
  obtain ⟨best, hbest, hle⟩ := select_loosened htolerates hchosen
  rw [honly hchosen] at hpinned
  rw [honly hbest] at hdrifting
  exact ⟨chosen, best, hchosen, hbest, Option.some.inj hpinned, Option.some.inj hdrifting, hle⟩

end Matching

end Regraft

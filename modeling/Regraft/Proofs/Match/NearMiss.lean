import Regraft.Proofs.Conflict
import Mathlib.Algebra.Order.Ring.Rat
import Mathlib.Data.Prod.Lex
/-!
# Near misses

A record that finds no place is reported with its best candidate, whether that one is good enough or not. A record of which
no place is good enough is shown with the best of those that are not, and this one is below the bar. But a record can also
fail because the records before it stand in the way, and then the near miss is a place that is good enough.

**Numbers (`Scale.Valued`, a hypothesis about what scores and distances are counted in).** Numbers are compared by values in
some linear order, and the slack at the bar neither turns a better score down nor lets one pass that is above the bar anyway.
Exact numbers are their own values (`Scale.valued_exact`); a floating-point number has a value unless it is not a number.

* `Candidate.rank_le_of_head?`: the first of the sorted candidates ranks first;
* `Matching.Stuck.blocked`: a record that finds no place, though some are good enough, has records in its way;
* `Matching.nearMiss_leads`: which candidate a conflict shows, and when it is the best of those that are not good enough;
* `Matching.nearMiss_blocked`: a near miss that is good enough.
-/
namespace Regraft

/-! ## Ranks of candidates -/

/-- Numbers that have values are compared by them, also with the slack at the bar. -/
structure Scale.Valued {α L : Type} [Scale α] [LinearOrder L] (HasValue : α → Prop) (value : α → L) : Prop where
  lt_iff : ∀ {a b : α}, HasValue a → HasValue b → (a < b ↔ value a < value b)
  same_iff : ∀ {a b : α}, HasValue a → HasValue b → (Scale.same a b = true ↔ value a = value b)
  passes : ∀ {bar a b : α}, HasValue bar → HasValue a → HasValue b → value a ≤ value b →
    bar ≤ a + Scale.slack → bar ≤ b + Scale.slack
  below : ∀ {bar a : α}, HasValue bar → HasValue a → ¬ bar ≤ a + Scale.slack → a < bar

/-- Every exact number is its own value. -/
theorem Scale.valued_exact : Scale.Valued (fun _ : ℚ => True) fun x : ℚ => x where
  lt_iff _ _ := Iff.rfl
  same_iff _ _ := beq_iff_eq
  passes _ _ _ hle hbar := hbar.trans (add_le_add_left hle _)
  below {bar a} _ _ hbar := by
    have hslack : (0 : ℚ) < Scale.slack := by with_unfolding_all decide
    exact lt_of_lt_of_le (lt_add_of_pos_right a hslack) (not_le.mp hbar).le

/-- The head of a list that is sorted by keys in a linear order has the least key. -/
theorem key_le_of_head?_mergeSort {β K : Type} [LinearOrder K] {le : β → β → Bool} (key : β → K) {xs : List β}
    (hle : ∀ x ∈ xs, ∀ y ∈ xs, (le x y = true ↔ key x ≤ key y)) {first : β}
    (hfirst : (xs.mergeSort le).head? = some first) : ∀ x ∈ xs, key first ≤ key x := by
  have hsort : xs.mergeSort le = xs.mergeSort fun x y => decide (key x ≤ key y) := by
    have hmap := List.map_mergeSort (f := id) (l := xs) (r := le) (s := fun x y => decide (key x ≤ key y))
      fun x hx y hy => Bool.eq_iff_iff.mpr ((hle x hx y hy).trans decide_eq_true_iff.symm)
    rwa [List.map_id, List.map_id] at hmap
  have hsorted : (xs.mergeSort fun x y => decide (key x ≤ key y)).Pairwise fun x y => decide (key x ≤ key y) = true :=
    List.pairwise_mergeSort (fun x y z hxy hyz => decide_eq_true ((of_decide_eq_true hxy).trans (of_decide_eq_true hyz)))
      (fun x y => by simpa using le_total (key x) (key y)) xs
  intro x hx
  rw [hsort] at hfirst
  obtain ⟨rest, hrest⟩ := List.head?_eq_some_iff.mp hfirst
  replace hx : x ∈ xs.mergeSort fun x y => decide (key x ≤ key y) := List.mem_mergeSort.mpr hx
  rw [hrest] at hsorted hx
  rcases List.mem_cons.mp hx with rfl | hx
  · exact le_rfl
  · exact of_decide_eq_true ((List.pairwise_cons.mp hsorted).1 x hx)

section
variable {α L : Type} [Scale α] [LinearOrder L] {HasValue : α → Prop} {value : α → L}

namespace Candidate

/-- The score and the distance of a candidate have values. -/
def Counts (HasValue : α → Prop) (c : Candidate α) : Prop := HasValue c.score ∧ HasValue c.distance

/-- Where a candidate ranks: a higher score first, then a smaller distance, then an earlier place. -/
def rank (value : α → L) (c : Candidate α) : Lᵒᵈ ×ₗ L ×ₗ Nat :=
  toLex (OrderDual.toDual (value c.score), toLex (value c.distance, c.position))

theorem atLeast_iff (hvalue : Scale.Valued HasValue value) {a b : Candidate α} (ha : a.Counts HasValue)
    (hb : b.Counts HasValue) : a.atLeast b = true ↔ a.rank value ≤ b.rank value := by
  simp only [rank, Prod.Lex.toLex_le_toLex, OrderDual.toDual_lt_toDual, OrderDual.toDual_inj, atLeast,
    hvalue.same_iff ha.1 hb.1, hvalue.same_iff ha.2 hb.2]
  split
  · rename_i hscore
    split
    · rename_i hdistance
      simp [hscore, hdistance]
    · rename_i hdistance
      simp [hscore, hdistance, hvalue.lt_iff ha.2 hb.2]
  · rename_i hscore
    simp [hscore, hvalue.lt_iff hb.1 ha.1]

/-- The first of the sorted candidates ranks before all others. -/
theorem rank_le_of_head? (hvalue : Scale.Valued HasValue value) {cs : List (Candidate α)}
    (hcs : ∀ c ∈ cs, c.Counts HasValue) {best : Candidate α}
    (hbest : (cs.mergeSort Candidate.atLeast).head? = some best) : ∀ c ∈ cs, best.rank value ≤ c.rank value :=
  key_le_of_head?_mergeSort (rank value) (fun a ha b hb => atLeast_iff hvalue (hcs a ha) (hcs b hb)) hbest

omit [Scale α] in
/-- No candidate that ranks behind another one has a higher score. -/
theorem score_le_of_rank_le {a b : Candidate α} (h : a.rank value ≤ b.rank value) : value b.score ≤ value a.score := by
  rcases Prod.Lex.toLex_le_toLex.mp h with hlt | ⟨heq, -⟩
  · exact le_of_lt (OrderDual.toDual_lt_toDual.mp hlt)
  · exact le_of_eq (OrderDual.toDual_inj.mp heq).symm

omit [LinearOrder L] in
/-- One of some candidates, and at least as good as all of them. -/
structure Leads (c : Candidate α) (cs : List (Candidate α)) : Prop where
  mem : c ∈ cs
  first : ∀ d ∈ cs, c.atLeast d = true

end Candidate

namespace Matching

variable {m : Matching α} {lines : List Text} {s : VersionSet} {text : Text} {report : Conflict α}

/-- The candidates of a record whose score is not high enough. -/
def failing (m : Matching α) (lines : List Text) (r : Record) : List (Candidate α) :=
  (m.candidatesInOrder lines r).filter fun c => !m.qualifies c.score

theorem mem_failing {r : Record} {c : Candidate α} :
    c ∈ m.failing lines r ↔ c ∈ m.candidatesInOrder lines r ∧ m.qualifies c.score = false := by
  rw [failing, List.mem_filter, Bool.not_eq_true']

/-- A record that finds no place, though some are good enough for it, has the records before it in its way: wherever these
are placed, the last of them ends behind every such place. -/
theorem Stuck.blocked {rs : List Record} {r : Record} (h : Stuck m lines rs r) :
    ∃ before after, rs = before ++ r :: after ∧ (∃ placed, m.Feasible lines before placed) ∧
      ∀ placed, m.Feasible lines before placed → ∀ c ∈ m.qualifying lines r,
        ∃ x ∈ placed.getLast?, c.position < x.1 + x.2.extent := by
  obtain ⟨before, after, hrs, hbefore, hno⟩ := h
  refine ⟨before, after, hrs, hbefore, fun placed hplaced c hc => ?_⟩
  by_contra hfree
  refine hno ⟨_, feasible_concat.mpr ⟨hplaced, suits_of_mem_qualifying hc, fun x hx => ?_⟩⟩
  exact Nat.le_of_not_lt fun hlt => hfree ⟨x, hx, hlt⟩

/-- When no version is selected, the conflict is about the first record of the newest version that no placement reaches.
There is a near miss if the record has a candidate at all, and it is the candidate that ranks first. It is the one that ranks
first among those that are not good enough exactly when no candidate is good enough, and then its score is below the bar.
Otherwise the near miss is good enough, and the records before it are in the way of all such places. -/
theorem nearMiss_leads (hvalue : Scale.Valued HasValue value) (hbar : HasValue m.requiredScore)
    (hcounts : ∀ v ∈ s.versions, ∀ r ∈ v.records, ∀ c ∈ m.candidatesInOrder lines r, c.Counts HasValue)
    (h : m.select lines s text = .error (.conflict report)) :
    (∃ newest older before after, s.newestFirst = newest :: older ∧ newest.records = before ++ report.record :: after ∧
        (∃ placed, m.Feasible lines before placed) ∧
        ∀ placed, m.Feasible lines before placed → ∀ c ∈ m.qualifying lines report.record,
          ∃ x ∈ placed.getLast?, c.position < x.1 + x.2.extent) ∧
      (report.nearMiss = none ↔ m.candidatesInOrder lines report.record = []) ∧
      ∀ miss, report.nearMiss = some miss → ∃ best : Candidate α, miss = best.nearMiss ∧
        best.Leads (m.candidatesInOrder lines report.record) ∧
        (best.Leads (m.failing lines report.record) ↔ m.qualifying lines report.record = []) ∧
        (m.qualifying lines report.record = [] ↔ m.qualifies best.score = false) ∧
        (m.qualifying lines report.record = [] → best.score < m.requiredScore) := by
  obtain ⟨newest, older, u, hnewest, hplace, rfl⟩ := unplaced_of_conflict h
  obtain ⟨before, after, hrecords, hbefore, hblocked⟩ := (place_stuck hplace).blocked
  have hsorted := best_of_place hplace
  refine ⟨⟨newest, older, before, after, hnewest, hrecords, hbefore, hblocked⟩, ?_, fun miss hmiss => ?_⟩
  · simp only [hsorted, Option.map_eq_none_iff, List.head?_eq_none_iff, candidates]
    rw [← List.length_eq_zero_iff, List.length_mergeSort, List.length_eq_zero_iff]
  have hmem : newest ∈ s.versions := List.mem_reverse.mp (hnewest.symm ▸ List.mem_cons_self : newest ∈ s.newestFirst)
  have hcounted := hcounts newest hmem u.record (hrecords ▸ List.mem_append_right _ List.mem_cons_self)
  obtain ⟨best, hbest, rfl⟩ := Option.map_eq_some_iff.mp hmiss
  rw [hsorted] at hbest
  have hfound : best ∈ m.candidatesInOrder lines u.record := List.mem_mergeSort.mp (List.mem_of_mem_head? hbest)
  have hrank := Candidate.rank_le_of_head? hvalue hcounted hbest
  have hfirst : ∀ c ∈ m.candidatesInOrder lines u.record, best.atLeast c = true := fun c hc =>
    (Candidate.atLeast_iff hvalue (hcounted best hfound) (hcounted c hc)).mpr (hrank c hc)
  -- no score is higher than that of the best candidate, so none is good enough unless this one is
  have hnone : m.qualifying lines u.record = [] ↔ m.qualifies best.score = false := by
    constructor
    · intro hempty
      refine Bool.eq_false_iff.mpr fun hpass => ?_
      have hbest : best ∈ m.qualifying lines u.record := List.mem_filter.mpr ⟨hfound, hpass⟩
      rw [hempty] at hbest
      cases hbest
    · intro hfails
      refine List.filter_eq_nil_iff.mpr fun c hc hpass => Bool.eq_false_iff.mp hfails ?_
      have hscore := Candidate.score_le_of_rank_le (hrank c hc)
      exact decide_eq_true (hvalue.passes hbar (hcounted c hc).1 (hcounted best hfound).1 hscore (of_decide_eq_true hpass))
  refine ⟨best, rfl, ⟨hfound, hfirst⟩, ⟨fun hleads => hnone.mpr (mem_failing.mp hleads.mem).2, fun hempty => ?_⟩, hnone,
    fun hempty => hvalue.below hbar (hcounted best hfound).1 (of_decide_eq_false (hnone.mp hempty))⟩
  exact ⟨mem_failing.mpr ⟨hfound, hnone.mp hempty⟩, fun c hc => hfirst c (mem_failing.mp hc).1⟩

end Matching

end

/-! ## A near miss that is good enough -/

deriving instance DecidableEq for Candidate

/-- How records are looked for here, on exact numbers. -/
def halfway : Matching ℚ := ⟨1 / 2, none, exactSimilarity⟩

/-- A line that is added in front of another one. -/
def addedBefore (line : Text) : Record :=
  { targetPath := "a.c", kind := .addition, following := [line], body := ["x;"] }

/-- The second line of the file is taken out. -/
def secondRemoved : Record := { targetPath := "a.c", kind := .deletion, stock := ["b;"], anchor := 1 }

/-- The one version with some records. -/
def onlyVersion (records : List Record) : Version := ⟨1, ⟨2024, 5, 1, 12, 0, 0, 0, none⟩, records⟩

namespace Matching

theorem nearMiss_leads_sample :
    ∃ report, halfway.select ["b;"] ⟨"a.c", [onlyVersion [addedBefore "gone;"]]⟩ [] = .error (.conflict report) ∧
      ∃ best : Candidate ℚ, report.nearMiss = some best.nearMiss ∧
        best.Leads (halfway.failing ["b;"] (addedBefore "gone;")) ∧ best.score < halfway.requiredScore := by
  have hempty : halfway.qualifying ["b;"] (addedBefore "gone;") = [] := by with_unfolding_all decide
  have hcandidates : halfway.candidatesInOrder ["b;"] (addedBefore "gone;") = [⟨0, 0, 0⟩, ⟨1, 0, 1⟩] := by
    with_unfolding_all decide
  have hsorted := List.mergeSort_of_pairwise
    (show List.Pairwise (fun a b => Candidate.atLeast a b = true) [(⟨0, 0, 0⟩ : Candidate ℚ), ⟨1, 0, 1⟩] by decide)
  have hplace : halfway.place ["b;"] (onlyVersion [addedBefore "gone;"]) =
      .error ⟨addedBefore "gone;", some ⟨0, 0, 0⟩⟩ := by
    simp [place, chains, onlyVersion, hempty, candidates, hcandidates, hsorted, bind, Except.bind]
  have hselect := select_of_unplaced "a.c" [] (by decide) hplace
  obtain ⟨-, -, hmiss⟩ := nearMiss_leads Scale.valued_exact trivial (fun _ _ _ _ _ _ => ⟨trivial, trivial⟩) hselect
  obtain ⟨best, hbest, -, hleads, -, hbelow⟩ := hmiss _ rfl
  exact ⟨_, hselect, best, congrArg some hbest, hleads.mpr hempty, hbelow hempty⟩

/-- A line is taken out, and behind it another one is added in front of the line before. The near miss that is shown is the
place of this line, which is good enough, and not the best of those that are not. -/
theorem nearMiss_blocked :
    ∃ report, halfway.select ["a;", "b;"] ⟨"a.c", [onlyVersion [secondRemoved, addedBefore "a;"]]⟩ [] =
        .error (.conflict report) ∧
      report.record = addedBefore "a;" ∧ report.nearMiss = some ⟨0, 1, 0⟩ ∧ halfway.qualifies 1 = true ∧
      ¬ (1 : ℚ) < halfway.requiredScore ∧
      (⟨1, 0, 1⟩ : Candidate ℚ).Leads (halfway.failing ["a;", "b;"] (addedBefore "a;")) := by
  have hcandidates : halfway.candidatesInOrder ["a;", "b;"] (addedBefore "a;") = [⟨0, 1, 0⟩, ⟨1, 0, 1⟩, ⟨2, 0, 2⟩] := by
    with_unfolding_all decide
  have hsorted := List.mergeSort_of_pairwise (show List.Pairwise (fun a b => Candidate.atLeast a b = true)
    [(⟨0, 1, 0⟩ : Candidate ℚ), ⟨1, 0, 1⟩, ⟨2, 0, 2⟩] by decide)
  have hremoved : halfway.qualifying ["a;", "b;"] secondRemoved = [⟨1, 1, 0⟩] := by with_unfolding_all decide
  have hadded : halfway.qualifying ["a;", "b;"] (addedBefore "a;") = [⟨0, 1, 0⟩] := by with_unfolding_all decide
  have hplace : halfway.place ["a;", "b;"] (onlyVersion [secondRemoved, addedBefore "a;"]) =
      .error ⟨addedBefore "a;", some ⟨0, 1, 0⟩⟩ := by
    have hbehind : continueChains secondRemoved.extent none [Chain.single ⟨1, 1, 0⟩] [(⟨0, 1, 0⟩ : Candidate ℚ)] = [] := by
      rfl
    simp [place, chains, chainsFrom, onlyVersion, hremoved, hadded, hbehind, candidates, hcandidates, hsorted, bind,
      Except.bind]
  have hfailing : halfway.failing ["a;", "b;"] (addedBefore "a;") = [⟨1, 0, 1⟩, ⟨2, 0, 2⟩] := by
    with_unfolding_all decide
  refine ⟨_, select_of_unplaced "a.c" [] (by decide) hplace, rfl, rfl, by with_unfolding_all decide,
    by with_unfolding_all decide, ?_⟩
  rw [hfailing]
  exact ⟨by simp, by decide⟩

end Matching

end Regraft

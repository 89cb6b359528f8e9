import Regraft.Match.Score
import Mathlib.Algebra.Order.Field.Rat
import Mathlib.Tactic.Linarith
import Mathlib.Tactic.Positivity
/-!
# Bounds on similarity

On exact numbers, no two lines agree by more than 1, and a line agrees with itself by 1, whichever of the
measures is used. For the partial agreement this rests on the matching blocks: they lie within both texts
(`Block.Within`) and do not overlap, so they hold no more characters than the shorter text.

* `matchedSize_le`: the matching blocks fit into both texts;
* `Measure.le_one`, `Measure.self`: what every measure keeps to.
-/
namespace Regraft

/-! ## Matching blocks -/

/-- A block lies within texts of these lengths. -/
structure Block.Within (left right : Nat) (block : Block) : Prop where
  left : block.left + block.size ≤ left
  right : block.right + block.size ≤ right

/-- Runs that end at the places of a text are no longer than what stands before their ends, in either text. -/
def RunsWithin (count : Nat) (runs : List Nat) : Prop := ∀ j run, runs[j]? = some run → run ≤ count ∧ run ≤ j + 1

theorem runsWithin_runsEnding {count : Nat} {runs : List Nat} (h : RunsWithin count runs)
    (starts : CodePoint → Bool) (c : CodePoint) (b : Text) : RunsWithin (count + 1) (runsEnding starts c b runs) := by
  intro j run hrun
  simp only [runsEnding, List.getElem?_map, Option.map_eq_some_iff] at hrun
  obtain ⟨⟨d, before⟩, hzip, rfl⟩ := hrun
  have hbefore := (List.getElem?_zip_eq_some.mp hzip).2
  have hle : before ≤ count ∧ before ≤ j := by
    cases j with
    | zero =>
      obtain rfl : 0 = before := by simpa using hbefore
      omega
    | succ j =>
      have := h j before (by simpa using hbefore)
      omega
  dsimp only
  split <;> omega

theorem within_betterRun {left right i : Nat} {best : Block} {runs : List Nat} (hbest : best.Within left right)
    (hi : i + 1 ≤ left) (hlen : runs.length ≤ right) (h : RunsWithin (i + 1) runs) :
    (betterRun i best runs).Within left right := by
  have hmem : ∀ x ∈ runs.zipIdx, x.1 ≤ i + 1 ∧ x.1 ≤ x.2 + 1 ∧ x.2 < runs.length := by
    intro x hx
    have hget := List.mem_zipIdx_iff_getElem?.mp hx
    have := h x.2 x.1 hget
    exact ⟨this.1, this.2, (List.getElem?_eq_some_iff.mp hget).1⟩
  unfold betterRun
  generalize runs.zipIdx = xs at hmem
  induction xs generalizing best with
  | nil => exact hbest
  | cons x xs ih =>
    rw [List.foldl_cons]
    refine ih ?_ fun y hy => hmem y (List.mem_cons_of_mem _ hy)
    have hx := hmem x List.mem_cons_self
    obtain ⟨run, j⟩ := x
    dsimp only at hx ⊢
    split
    · constructor <;> dsimp only <;> omega
    · exact hbest

theorem length_runsEnding (starts : CodePoint → Bool) (c : CodePoint) (b : Text) {runs : List Nat}
    (h : runs.length = b.length) : (runsEnding starts c b runs).length = b.length := by
  simp [runsEnding, h]

theorem within_longestRun (starts : CodePoint → Bool) (b : Text) (cs : Text) :
    ∀ {i : Nat} {runs : List Nat} {best : Block}, best.Within (i + cs.length) b.length →
      runs.length = b.length → RunsWithin i runs →
      (longestRun starts b i cs runs best).Within (i + cs.length) b.length := by
  induction cs with
  | nil => exact fun h _ _ => h
  | cons c cs ih =>
    intro i runs best hbest hlen hruns
    have hnext := runsWithin_runsEnding hruns starts c b
    have hlen' := length_runsEnding starts c b hlen
    have hcount : i + (c :: cs).length = i + 1 + cs.length := by
      rw [List.length_cons]
      omega
    rw [hcount] at hbest ⊢
    exact ih (within_betterRun hbest (by omega) hlen'.le hnext) hlen' hnext

theorem commonStart_le (a b : Text) : commonStart a b ≤ a.length ∧ commonStart a b ≤ b.length := by
  induction a generalizing b with
  | nil => simp [commonStart]
  | cons c cs ih =>
    cases b with
    | nil => simp [commonStart]
    | cons d ds =>
      have := ih ds
      unfold commonStart
      split
      · simp only [List.length_cons]
        omega
      · omega

/-- The longest block lies within both texts. -/
theorem within_longestBlock (starts : CodePoint → Bool) (a b : Text) :
    (longestBlock starts a b).Within a.length b.length := by
  have hrun : (longestRun starts b 0 a (b.map fun _ => 0) ⟨0, 0, 0⟩).Within a.length b.length := by
    have hzero : RunsWithin 0 (b.map fun _ => 0) := by
      intro j run h
      rw [List.getElem?_map, Option.map_eq_some_iff] at h
      obtain ⟨-, -, rfl⟩ := h
      omega
    have := @within_longestRun starts b a 0 _ ⟨0, 0, 0⟩ ⟨Nat.zero_le _, Nat.zero_le _⟩ (by simp) hzero
    simpa using this
  obtain ⟨hl, hr⟩ := hrun
  unfold longestBlock
  generalize longestRun starts b 0 a (b.map fun _ => 0) ⟨0, 0, 0⟩ = run at hl hr
  have hbefore := commonStart_le (a.take run.left).reverse (b.take run.right).reverse
  have hbehind := commonStart_le (a.drop (run.left + run.size)) (b.drop (run.right + run.size))
  simp only [List.length_reverse, List.length_take, List.length_drop] at hbefore hbehind
  constructor <;> simp only <;> omega

/-- The matching blocks fit into both texts. -/
theorem matchedFrom_le (starts : CodePoint → Bool) (fuel : Nat) :
    ∀ a b : Text, matchedFrom starts fuel a b ≤ a.length ∧ matchedFrom starts fuel a b ≤ b.length := by
  induction fuel with
  | zero => simp [matchedFrom]
  | succ fuel ih =>
    intro a b
    obtain ⟨hl, hr⟩ := within_longestBlock starts a b
    unfold matchedFrom
    dsimp only
    split
    · omega
    · have hbefore := ih (a.take (longestBlock starts a b).left) (b.take (longestBlock starts a b).right)
      have hbehind := ih (a.drop ((longestBlock starts a b).left + (longestBlock starts a b).size))
        (b.drop ((longestBlock starts a b).right + (longestBlock starts a b).size))
      simp only [List.length_take, List.length_drop] at hbefore hbehind
      omega

theorem matchedSize_le (a b : Text) : matchedSize a b ≤ a.length ∧ matchedSize a b ≤ b.length :=
  matchedFrom_le _ _ a b

/-! ## Measures -/

theorem agreement_le_one (a b : Text) : agreement (α := ℚ) a b ≤ 1 := by
  unfold agreement
  dsimp only
  split
  · rfl
  · rename_i hne
    have hle : ((2 * matchedSize a b : Nat) : ℚ) ≤ ((a.length + b.length : Nat) : ℚ) := by
      have := matchedSize_le a b
      exact_mod_cast (by omega : 2 * matchedSize a b ≤ a.length + b.length)
    have hpos : (0 : ℚ) < ((a.length + b.length : Nat) : ℚ) := by
      exact_mod_cast Nat.pos_of_ne_zero hne
    exact (div_le_one hpos).mpr hle

/-- A measure by which a line agrees with itself, and with no line by more than that. -/
structure Measure (similarity : Similarity ℚ) : Prop where
  self : ∀ line, similarity line line = 1
  le_one : ∀ expected actual, similarity expected actual ≤ 1

theorem measure_exact : Measure exactSimilarity where
  self line := by simp [exactSimilarity, Scale.ofNat]
  le_one expected actual := by
    unfold exactSimilarity
    split <;> simp [Scale.ofNat]

theorem measure_blank : Measure blankSimilarity where
  self line := by simp [blankSimilarity, Scale.ofNat]
  le_one expected actual := by
    unfold blankSimilarity
    split <;> simp [Scale.ofNat]

theorem measure_fuzzy (threshold : ℚ) : Measure (fuzzySimilarity threshold) where
  self line := by simp [fuzzySimilarity, Scale.ofNat]
  le_one expected actual := by
    unfold fuzzySimilarity
    split
    · simp [Scale.ofNat]
    · dsimp only
      split
      · exact agreement_le_one _ _
      · simp [Scale.ofNat]

end Regraft

import Regraft.Proofs.Match.Anchor
import Mathlib.Data.Rat.Floor
/-!
# The bound of the tolerance

Where lines agree if they are equal, a score counts: of `N` context lines, `n` of which differ from the lines that they
stand for or stand for none (`mismatches`), the score is `(N - n) / N`. It is high enough exactly when `n` is at most the
tolerance times `N`. The slack by which a score may fall short makes no difference, as long as the tolerance is a fraction
whose denominator times `N` is less than the inverse of the slack: the scores that can occur are farther apart than it.

* `score_exact`: the score of a place;
* `within_slack_iff`: what the slack admits;
* `tolerance_bound`: both for a match.
-/
namespace Regraft

/-! ## Counting mismatches -/

/-- The line at an index; there is none in front of a file or behind it. -/
def lineAt? (lines : List Text) (index : Int) : Option Text :=
  if 0 ≤ index then lines[index.toNat]? else none

/-- How many of some lines differ from the lines of a file from an index on, or stand for none. -/
def differing (lines : List Text) : (start : Int) → (expected : List Text) → Nat
  | _, [] => 0
  | start, line :: rest => (if lineAt? lines start = some line then 0 else 1) + differing lines (start + 1) rest

/-- How many context lines of a record differ from the lines around a place, or stand for none: the lines before the place
end right in front of it, the lines behind it start right behind those that the record takes out. -/
def mismatches (lines : List Text) (position : Nat) (r : Record) : Nat :=
  differing lines (position - r.preceding.length) r.preceding + differing lines (position + r.extent) r.following

/-- How many pairs are of equal lines. -/
def agreeing (pairs : List (Text × Text)) : Nat := pairs.countP fun x => x.1 = x.2

theorem lineAt?_ofNat (lines : List Text) (i : Nat) : lineAt? lines i = lines[i]? := by
  simp [lineAt?]

/-- From an index of the file on, a line either differs or agrees with the one that it is put next to. -/
theorem differing_add_agreeing (lines expected : List Text) (start : Nat) :
    differing lines start expected + agreeing (expected.zip (lines.drop start)) = expected.length := by
  induction expected generalizing start with
  | nil => rfl
  | cons line rest ih =>
    have hrest := ih (start + 1)
    push_cast at hrest
    simp only [differing, lineAt?_ofNat, List.length_cons]
    cases hline : lines[start]? with
    | none =>
      have hend := List.getElem?_eq_none_iff.mp hline
      rw [List.drop_eq_nil_of_le (by omega), List.zip_nil_right] at hrest
      rw [List.drop_eq_nil_of_le hend, List.zip_nil_right]
      simp only [reduceCtorEq, if_false]
      omega
    | some other =>
      obtain ⟨hin, hother⟩ := List.getElem?_eq_some_iff.mp hline
      rw [List.drop_eq_getElem_cons hin, hother, List.zip_cons_cons]
      simp only [agreeing, List.countP_cons, Option.some.injEq, decide_eq_true_eq] at hrest ⊢
      by_cases hsame : line = other
      · rw [if_pos hsame.symm, if_pos hsame]
        omega
      · rw [if_neg (Ne.symm hsame), if_neg hsame]
        omega

/-- Lines in front of the file stand for none. -/
theorem differing_neg (lines : List Text) (before : Nat) (expected : List Text) :
    differing lines (-before) expected = (expected.take before).length + differing lines 0 (expected.drop before) := by
  induction before generalizing expected with
  | zero => simp
  | succ before ih =>
    cases expected with
    | nil => rfl
    | cons line rest =>
      have hnone : lineAt? lines (-(before + 1 : Nat)) = none := if_neg (by omega)
      have hnext : (-(before + 1 : Nat) : Int) + 1 = -before := by omega
      simp only [differing, hnone, hnext, ih, reduceCtorEq, if_false, List.take_succ_cons, List.drop_succ_cons,
        List.length_cons]
      omega

/-- Lines are put next to no more than their number. -/
theorem zip_take {front : List Text} {count : Nat} (h : front.length ≤ count) (back : List Text) :
    front.zip (back.take count) = front.zip back :=
  calc front.zip (back.take count) = (front.take count).zip (back.take count) := by rw [List.take_of_length_le h]
    _ = (front.zip back).take count := List.take_zipWith.symm
    _ = front.zip back := List.take_of_length_le (by rw [List.length_zip]; omega)

/-- The lines before a place either differ, or agree with the lines that they are put next to. -/
theorem differing_before (lines expected : List Text) (position : Nat) :
    differing lines (position - expected.length) expected +
      agreeing ((expected.drop (expected.length - position)).zip ((lines.take position).drop (position - expected.length))) =
        expected.length := by
  have hlength : (expected.drop (expected.length - position)).length ≤ position - (position - expected.length) := by
    rw [List.length_drop]
    omega
  rw [List.drop_take, zip_take hlength]
  rcases Nat.le_total expected.length position with hle | hle
  · have hstart : (position - expected.length : Int) = (position - expected.length : Nat) := by omega
    rw [hstart, Nat.sub_eq_zero_of_le hle, List.drop_zero]
    exact differing_add_agreeing lines expected (position - expected.length)
  · have hstart : (position - expected.length : Int) = -(expected.length - position : Nat) := by omega
    have hrest := differing_add_agreeing lines (expected.drop (expected.length - position)) 0
    rw [Nat.cast_zero, List.length_drop] at hrest
    rw [hstart, differing_neg, Nat.sub_eq_zero_of_le hle, List.length_take]
    omega

/-- Every context line is a mismatch, or agrees with the line that it is compared with. -/
theorem mismatches_add_agreeing (lines : List Text) (position : Nat) (r : Record) :
    mismatches lines position r + agreeing (Matching.comparedLines lines position r) = r.contextSize := by
  have hbefore := differing_before lines r.preceding position
  have hbehind := differing_add_agreeing lines r.following (position + r.extent)
  push_cast at hbehind
  simp only [mismatches, Matching.comparedLines, agreeing, List.countP_append, Record.contextSize] at hbefore hbehind ⊢
  omega

/-! ## The score -/

/-- A place is one for a record: it is within the file, and what the record takes out stands there. -/
structure Record.CanGo (lines : List Text) (position : Nat) (r : Record) : Prop where
  inside : position ≤ lines.length
  stands : r.kind = .deletion → r.stock <+: lines.drop position

theorem extentFits_iff {lines : List Text} {position : Nat} {r : Record} :
    Matching.extentFits lines position r = true ↔ (r.kind = .deletion → r.stock <+: lines.drop position) := by
  unfold Matching.extentFits
  cases hkind : r.kind with
  | addition => simp
  | deletion =>
    simp only [Record.extent, hkind, decide_eq_true_eq, true_imp_iff, List.prefix_iff_eq_take]
    exact eq_comm

namespace Matching

variable {m : Matching ℚ} {lines : List Text} {position : Nat} {r : Record}

/-- A record has a score exactly at the places for it. -/
theorem exists_score_iff : (∃ s, m.score lines position r = some s) ↔ r.CanGo lines position := by
  have hcan : r.CanGo lines position ↔ position ≤ lines.length ∧ extentFits lines position r = true :=
    ⟨fun h => ⟨h.inside, extentFits_iff.mpr h.stands⟩, fun h => ⟨h.1, extentFits_iff.mp h.2⟩⟩
  rw [hcan]
  constructor
  · rintro ⟨s, hs⟩
    exact score_eq_some hs
  · rintro ⟨hinside, hfits⟩
    unfold score
    rw [if_neg (by simp [hfits, hinside])]
    split <;> exact ⟨_, rfl⟩

/-- The agreement of lines that agree if they are equal. -/
theorem agreementOf_exact (hexact : m.similarity = exactSimilarity) (pairs : List (Text × Text)) :
    m.agreementOf pairs = agreeing pairs := by
  rw [agreementOf_eq, hexact]
  induction pairs with
  | nil => rfl
  | cons x pairs ih =>
    rw [List.map_cons, List.sum_cons, ih]
    simp only [agreeing, List.countP_cons, exactSimilarity, decide_eq_true_eq]
    split <;> simp [Scale.ofNat, add_comm]

/-- Where lines agree if they are equal, the score is the share of the context lines that are no mismatches. -/
theorem score_exact (hexact : m.similarity = exactSimilarity) (hcontext : 1 ≤ r.contextSize)
    (hplace : r.CanGo lines position) :
    m.score lines position r = some ((r.contextSize - mismatches lines position r : ℚ) / r.contextSize) := by
  have hcount : (agreeing (comparedLines lines position r) : ℚ) = r.contextSize - mismatches lines position r := by
    have := mismatches_add_agreeing lines position r
    rw [eq_sub_iff_add_eq, add_comm]
    exact_mod_cast this
  have hinside : ¬ lines.length < position := Nat.not_lt.mpr hplace.inside
  rw [score, if_neg (by simp [extentFits_iff.mpr hplace.stands, hinside]), if_neg (by omega), agreementOf_exact hexact,
    hcount]
  rfl

end Matching

/-! ## The slack -/

/-- A number of mismatches exceeds what a fraction allows by at least one over its denominator, and so by more than the
slack if there are not too many lines. -/
theorem within_slack_iff {tolerance : ℚ} {size count : Nat} (hslack : tolerance.den * size < 10 ^ 9) :
    (count : ℚ) ≤ tolerance * size + size / 10 ^ 9 ↔ (count : ℤ) ≤ ⌊tolerance * size⌋ := by
  have hden : (0 : ℚ) < tolerance.den := by exact_mod_cast tolerance.den_pos
  have hallowed : tolerance * size * tolerance.den = tolerance.num * size := by
    rw [mul_right_comm, Rat.mul_den_eq_num]
  rw [Int.le_floor, Int.cast_natCast]
  constructor
  · intro hle
    by_contra! hmore
    -- cleared of the denominator, both sides are whole numbers
    have hwhole : tolerance.num * size + 1 ≤ (count : ℤ) * tolerance.den := by
      have hlt : (tolerance.num * size : ℚ) < count * tolerance.den := by
        rw [← hallowed]
        exact mul_lt_mul_of_pos_right hmore hden
      exact Int.add_one_le_iff.mpr (by exact_mod_cast hlt)
    have hwhole' : (tolerance.num * size + 1 : ℚ) ≤ count * tolerance.den := by exact_mod_cast hwhole
    have hscaled := mul_le_mul_of_nonneg_right hle hden.le
    rw [add_mul, hallowed] at hscaled
    have hfew : (tolerance.den * size : ℚ) < 10 ^ 9 := by exact_mod_cast hslack
    have hone : (1 : ℚ) ≤ size / 10 ^ 9 * tolerance.den := by linarith
    rw [div_mul_eq_mul_div, le_div_iff₀ (by norm_num)] at hone
    linarith
  · intro hle
    have : (0 : ℚ) ≤ size / 10 ^ 9 := by positivity
    linarith

namespace Matching

variable {m : Matching ℚ} {lines : List Text} {position : Nat} {r : Record}

/-- A share of agreeing lines is high enough if the other lines are not more than the tolerance and the slack allow. -/
theorem qualifies_share_iff {size count : Nat} (hsize : 1 ≤ size) :
    m.qualifies ((size - count : ℚ) / size) = true ↔ (count : ℚ) ≤ m.contentTolerance * size + size / 10 ^ 9 := by
  have hpos : (0 : ℚ) < size := by exact_mod_cast hsize
  have hslack : (Scale.slack : ℚ) = 1 / 10 ^ 9 := by norm_num [Scale.slack]
  have hrequired : m.requiredScore = 1 - m.contentTolerance := rfl
  rw [qualifies, decide_eq_true_eq, hrequired, hslack, ← sub_le_iff_le_add, le_div_iff₀ hpos]
  constructor <;> intro h <;> linarith

/-- A record with context lines has a score at the places for it. If lines agree when they are equal, the score is the share
of the context lines that are no mismatches, and it is high enough exactly when there are no more mismatches than the
tolerance times the number of context lines, rounded down. -/
theorem tolerance_bound (hexact : m.similarity = exactSimilarity) (hcontext : 1 ≤ r.contextSize)
    (hslack : m.contentTolerance.den * r.contextSize < 10 ^ 9) :
    ((∃ s, m.score lines position r = some s) ↔ r.CanGo lines position) ∧
      ∀ s, m.score lines position r = some s →
        s = (r.contextSize - mismatches lines position r : ℚ) / r.contextSize ∧
        (m.qualifies s = true ↔ (mismatches lines position r : ℤ) ≤ ⌊m.contentTolerance * r.contextSize⌋) := by
  refine ⟨exists_score_iff, fun s hs => ?_⟩
  have hplace := exists_score_iff.mp ⟨s, hs⟩
  obtain rfl : _ = s := Option.some.inj ((score_exact hexact hcontext hplace).symm.trans hs)
  exact ⟨rfl, (qualifies_share_iff hcontext).trans (within_slack_iff hslack)⟩

/-- A record of five context lines, three in front of it and two behind it. -/
def framedRecord : Record :=
  { targetPath := "a.c", kind := .addition, preceding := ["z;", "a;", "b;"], following := ["c;", "d;"], body := ["new;"] }

/-- A file in which one of these lines has changed, and two would stand outside of it. -/
def framedLines : List Text := ["a;", "x;", "c;"]

/-- Three mismatches of five lines are just within a tolerance of three fifths, and not within one of a half. -/
theorem tolerance_bound_framed :
    mismatches framedLines 2 framedRecord = 3 ∧
      (⟨3 / 5, none, exactSimilarity⟩ : Matching ℚ).qualifies (2 / 5) = true ∧
      (⟨1 / 2, none, exactSimilarity⟩ : Matching ℚ).qualifies (2 / 5) = false := by
  have hcount : mismatches framedLines 2 framedRecord = 3 := by decide
  have hsize : framedRecord.contextSize = 5 := rfl
  have hplace : framedRecord.CanGo framedLines 2 := ⟨by decide, by decide⟩
  have hbound : ∀ tolerance : ℚ, tolerance.den * framedRecord.contextSize < 10 ^ 9 →
      ((⟨tolerance, none, exactSimilarity⟩ : Matching ℚ).qualifies (2 / 5) = true ↔ 3 ≤ ⌊tolerance * 5⌋) := by
    intro tolerance hslack
    obtain ⟨hscored, hcounts⟩ :=
      @tolerance_bound ⟨tolerance, none, exactSimilarity⟩ framedLines 2 framedRecord rfl (by decide) hslack
    obtain ⟨s, hs⟩ := hscored.mpr hplace
    obtain ⟨hscore, hqualifies⟩ := hcounts s hs
    have hshare : s = 2 / 5 := by
      rw [hscore, hcount, hsize]
      norm_num
    rwa [hshare, hcount, hsize] at hqualifies
  refine ⟨hcount, (hbound _ (by with_unfolding_all decide)).mpr ?_, Bool.eq_false_iff.mpr fun hqualifies => ?_⟩
  · rw [Int.le_floor]
    norm_num
  · have hle := Int.le_floor.mp ((hbound _ (by with_unfolding_all decide)).mp hqualifies)
    norm_num at hle

end Matching

end Regraft

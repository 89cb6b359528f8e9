import Regraft.Number.Digits
import Mathlib.Tactic.IntervalCases
/-!
# Numbers in digits

A number in decimal notation is made of digits (`isDigit_of_mem_showNat`), starts with a zero only if it is zero
(`showNat_of_head?_zero`), and stands for itself (`digitsValue_showNat`), with zeros in front of it as well
(`digitsValue_showPadded`). So different numbers are written differently (`showPadded_inj`).
-/
namespace Regraft

/-! ## The value of digits -/

theorem digitsValue_eq_ofDigitChars (cs : List Char) : digitsValue (Text.ofChars cs) = Nat.ofDigitChars 10 cs 0 := by
  simp only [digitsValue, valueOfDigits, Text.ofChars, Nat.ofDigitChars, List.map_map, List.foldl_map]
  rfl

/-- A number in decimal notation stands for itself. -/
@[simp] theorem digitsValue_showNat (n : Nat) : digitsValue (showNat n) = n :=
  (digitsValue_eq_ofDigitChars _).trans Nat.ofDigitChars_ten_toDigits

/-- Zeros in front do not count. -/
@[simp] theorem digitsValue_zeros_append (k : Nat) (t : Text) :
    digitsValue (List.replicate k (char '0') ++ t) = digitsValue t := by
  induction k with
  | zero => rfl
  | succ k ih => exact ih

/-! ## Digits -/

theorem isDigit_of_mem_showNat {n : Nat} {c : CodePoint} (h : c ∈ showNat n) : c.isDigit = true := by
  obtain ⟨d, hd, rfl⟩ := List.mem_map.mp h
  exact Nat.isDigit_of_mem_toDigits (by omega) (by omega) hd

theorem showNat_ne_nil (n : Nat) : showNat n ≠ [] := by
  simp [showNat, Text.ofChars, Nat.toDigits_ne_nil]

/-- Only the number zero starts with a zero. -/
theorem showNat_of_head?_zero {n : Nat} (h : (showNat n).head? = some (char '0')) : n = 0 := by
  induction n using Nat.strongRecOn with
  | _ n ih =>
    by_cases hn : n < 10
    · interval_cases n <;> revert h <;> decide
    · have hsplit : showNat n = showNat (n / 10) ++ Text.ofChars [(n % 10).digitChar] := by
        simp [showNat, Text.ofChars, Nat.toDigits_of_base_le (by omega : 1 < 10) (Nat.not_lt.mp hn)]
      obtain ⟨c, rest, hfirst⟩ := List.exists_cons_of_ne_nil (showNat_ne_nil (n / 10))
      have hhead : (showNat (n / 10)).head? = some (char '0') := by
        rw [hsplit, hfirst] at h
        rwa [hfirst]
      have := ih (n / 10) (by omega) hhead
      omega

/-- The decimal digits of ASCII are among those of all scripts. -/
theorem isDecimalDigit_of_isDigit {c : CodePoint} (h : c.isDigit = true) : isDecimalDigit c = true := by
  obtain ⟨d, rfl⟩ : ∃ d : Char, c = char d := by
    cases c with
    | char d => exact ⟨d, rfl⟩
    | half place => cases h
  have hd : d.isDigit = true := h
  simp only [Char.isDigit, Bool.and_eq_true, decide_eq_true_eq, UInt32.le_iff_toNat_le] at hd
  have hlow : 48 ≤ (char d : CodePoint).toNat := hd.1
  have hhigh : (char d : CodePoint).toNat < 48 + 10 := by
    have := hd.2
    exact Nat.lt_succ_of_le this
  simp [isDecimalDigit, digitValue?, digitZeros, hlow, hhigh]

/-! ## Padded numbers -/

theorem showPadded_ofNat (width n : Nat) :
    showPadded width (n : Int) = List.replicate (width - (showNat n).length) (char '0') ++ showNat n := by
  have hsign : ¬ (n : Int) < 0 := by omega
  simp [showPadded, hsign]

theorem isDigit_of_mem_showPadded {width n : Nat} {c : CodePoint} (h : c ∈ showPadded width (n : Int)) :
    c.isDigit = true := by
  rw [showPadded_ofNat] at h
  rcases List.mem_append.mp h with h | h
  · rw [List.eq_of_mem_replicate h]
    rfl
  · exact isDigit_of_mem_showNat h

theorem digitsValue_showPadded (width n : Nat) : digitsValue (showPadded width (n : Int)) = n := by
  rw [showPadded_ofNat, digitsValue_zeros_append, digitsValue_showNat]

theorem showPadded_ne_nil (width n : Nat) : showPadded width (n : Int) ≠ [] := by
  rw [showPadded_ofNat]
  exact List.append_ne_nil_of_right_ne_nil _ (showNat_ne_nil n)

theorem showPadded_inj {width a b : Nat} (h : showPadded width (a : Int) = showPadded width (b : Int)) : a = b := by
  rw [← digitsValue_showPadded width a, h, digitsValue_showPadded]

/-- A number that fits into a width is written in just that width. -/
theorem length_showPadded {width n : Nat} (hw : 0 < width) (h : n < 10 ^ width) :
    (showPadded width (n : Int)).length = width := by
  have hlen : (showNat n).length ≤ width := by
    rw [showNat, Text.ofChars, List.length_map]
    exact (Nat.length_toDigits_le_iff (by omega) hw).mpr h
  rw [showPadded_ofNat, List.length_append, List.length_replicate]
  omega

end Regraft

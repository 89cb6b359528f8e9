import Regraft.Json.Reader
import Regraft.Json.Writer
import Regraft.Proofs.Text.Whole
import Mathlib.Tactic.IntervalCases
/-!
# Quoted texts read back

A quoted text is read as the text it was written from (`readText_quoteRaw`). It may not hold halves of surrogate
pairs: the reader joins two of them to one character, and no file holds one alone.
-/
namespace Regraft

namespace Json

/-! ## Escapes -/

theorem hexValue?_hexDigit {n : Nat} (h : n < 16) : hexValue? (hexDigit n) = some n := by
  interval_cases n <;> decide

/-- Four digits stand for the number that they were made of. -/
theorem codeUnit?_hexDigits {n : Nat} (h : n < 0x10000) :
    codeUnit? (hexDigit (n / 4096 % 16)) (hexDigit (n / 256 % 16)) (hexDigit (n / 16 % 16)) (hexDigit (n % 16)) =
      some n := by
  have hlt : ∀ k : Nat, k % 16 < 16 := fun k => Nat.mod_lt _ (by omega)
  simp only [codeUnit?, hexValue?_hexDigit (hlt _), bind, Option.bind, pure]
  exact congrArg some (by omega)

theorem escaped?_of_shortEscape? {c e : CodePoint} (h : shortEscape? c = some e) :
    escaped? e = some c ∧ e ≠ char 'u' := by
  unfold shortEscape? at h
  split at h <;> cases h <;> exact ⟨rfl, by decide⟩

/-- The short escapes are those of the quote, the backslash and some control characters. -/
theorem ne_of_shortEscape?_eq_none {c : CodePoint} (h : shortEscape? c = none) :
    c ≠ char '"' ∧ c ≠ char '\\' := by
  constructor
  · rintro rfl
    cases h
  · rintro rfl
    cases h

/-! ## One character -/

theorem readWritten_short {e c : CodePoint} (h : escaped? e = some c) (hu : e ≠ char 'u') (rest : Text) :
    readWritten (char '\\' :: e :: rest) = (readWritten rest).map fun x => (c :: x.1, x.2) := by
  rw [readWritten.eq_def]
  split
  · rename_i heq
    cases heq
  · rename_i heq
    cases heq
  · rename_i heq
    cases heq
    exact absurd rfl hu
  · rename_i heq
    cases heq
    rw [h]
  · rename_i hne heq
    cases heq
    exact (hne _ _ rfl rfl).elim

theorem readWritten_plain {c : CodePoint} (hq : c ≠ char '"') (hb : c ≠ char '\\') (h : 32 ≤ c.toNat) (rest : Text) :
    readWritten (c :: rest) = (readWritten rest).map fun x => (c :: x.1, x.2) := by
  rw [readWritten.eq_def]
  split
  · rename_i heq
    cases heq
  · rename_i heq
    cases heq
    exact absurd rfl hq
  · rename_i heq
    cases heq
    exact absurd rfl hb
  · rename_i heq
    cases heq
    exact absurd rfl hb
  · rename_i heq
    cases heq
    rw [if_neg (Nat.not_lt.mpr h)]

/-- A character is read as it was written, with an escape or without one. -/
theorem readWritten_quoteCodePoint {c : CodePoint} (rest : Text) :
    readWritten (quoteCodePoint (fun c => 32 ≤ c.toNat) c ++ rest) =
      (readWritten rest).map fun x => (c :: x.1, x.2) := by
  unfold quoteCodePoint
  cases hshort : shortEscape? c with
  | some e =>
    obtain ⟨hescaped, hu⟩ := escaped?_of_shortEscape? hshort
    exact readWritten_short hescaped hu rest
  | none =>
    obtain ⟨hq, hb⟩ := ne_of_shortEscape?_eq_none hshort
    by_cases hplain : 32 ≤ c.toNat
    · simp only [hplain, decide_true, if_true, List.singleton_append]
      exact readWritten_plain hq hb hplain rest
    · have hlow : c.toNat < 0x10000 := by omega
      simp only [hplain, decide_false, Bool.false_eq_true, if_false, escapeUnits, hlow, if_true, unicodeEscape,
        List.cons_append, List.nil_append]
      rw [readWritten, codeUnit?_hexDigits hlow]
      simp only [CodePoint.ofNat_toNat]

/-! ## Whole texts -/

theorem readWritten_written (t rest : Text) :
    readWritten (t.flatMap (quoteCodePoint fun c => 32 ≤ c.toNat) ++ char '"' :: rest) = some (t, rest) := by
  induction t with
  | nil => rfl
  | cons c t ih =>
    rw [List.flatMap_cons, List.append_assoc, readWritten_quoteCodePoint, ih]
    rfl

theorem joinPairs_eq_self {t : Text} (h : t.IsWhole) : joinPairs t = t := by
  fun_induction joinPairs t with
  | case1 => rfl
  | case2 c => rfl
  | case3 c d rest e hpair ih =>
    have hc := h c List.mem_cons_self
    cases c with
    | char c => cases hpair
    | half place => cases hc
  | case4 c d rest hpair ih => rw [ih fun x hx => h x (List.mem_cons_of_mem _ hx)]

/-- Halves stand in a quoted text as they are. -/
theorem isWhole_of_quoteRaw {t : Text} (h : (quoteRaw t).IsWhole) : t.IsWhole := by
  intro c hc
  cases c with
  | char c => rfl
  | half place =>
    refine h (.half place) (List.mem_cons_of_mem _ (List.mem_append_left _ (List.mem_flatMap.mpr ⟨_, hc, ?_⟩)))
    have hplain : 32 ≤ (CodePoint.half place).toNat := by
      simp only [CodePoint.toNat, CodePoint.firstHalf]
      omega
    simp [quoteCodePoint, shortEscape?, hplain]

/-- A quoted text is read as the text it was written from. -/
theorem readText_quoteRaw {t : Text} (h : t.IsWhole) (rest : Text) :
    ∃ body, quoteRaw t ++ rest = char '"' :: body ∧ readText body = some (t, rest) := by
  refine ⟨t.flatMap (quoteCodePoint fun c => 32 ≤ c.toNat) ++ char '"' :: rest, ?_, ?_⟩
  · simp [quoteRaw, quote]
  · rw [readText, readWritten_written]
    exact congrArg (fun u => some (u, rest)) (joinPairs_eq_self h)

end Json

end Regraft

import Regraft.Proofs.Text.Scan
/-!
# Whole texts

A text is whole if it holds no half of a surrogate pair: the content of a file is, and no other text can be written to a
file. What is cut out of whole texts and put together from them is whole again.
-/
namespace Regraft

/-- A text of characters only, without halves of pairs. -/
def Text.IsWhole (t : Text) : Prop := ∀ c ∈ t, c.isHalf = false

@[simp] theorem isHalf_char (c : Char) : (char c).isHalf = false := rfl

namespace Text

variable {s t : Text}

theorem isWhole_ofChars (cs : List Char) : (ofChars cs).IsWhole := by
  intro c hc
  obtain ⟨d, -, rfl⟩ := List.mem_map.mp hc
  rfl

@[simp] theorem isWhole_nil : IsWhole [] := by
  simp [IsWhole]

@[simp] theorem isWhole_append : (s ++ t : Text).IsWhole ↔ s.IsWhole ∧ t.IsWhole :=
  List.forall_mem_append

@[simp] theorem isWhole_cons {c : CodePoint} : IsWhole (c :: t) ↔ c.isHalf = false ∧ t.IsWhole :=
  List.forall_mem_cons

@[simp] theorem isWhole_ofString (s : String) : (ofString s).IsWhole := isWhole_ofChars _

@[simp] theorem isWhole_replicate (n : Nat) (c : Char) : IsWhole (List.replicate n (char c)) := by
  intro d hd
  rw [List.eq_of_mem_replicate hd]
  rfl

theorem IsWhole.of_sublist (h : t.IsWhole) (hs : s.Sublist t) : s.IsWhole := fun c hc => h c (hs.subset hc)

/-- A text that has characters is whole. -/
theorem isWhole_of_chars? {cs : List Char} (h : t.chars? = some cs) : t = ofChars cs := by
  induction t generalizing cs with
  | nil =>
    obtain rfl : [] = cs := by simpa [chars?] using h
    rfl
  | cons c t ih =>
    simp only [chars?, List.mapM_cons] at h
    cases c with
    | half place => cases h
    | char d =>
      cases ht : t.mapM CodePoint.char? with
      | none => simp [CodePoint.char?, ht] at h
      | some ds =>
        obtain rfl : d :: ds = cs := by simpa [CodePoint.char?, ht] using h
        exact congrArg (char d :: ·) (ih ht)

/-- A whole text has characters. -/
theorem IsWhole.exists_chars (h : t.IsWhole) : ∃ cs, t.chars? = some cs := by
  induction t with
  | nil => exact ⟨[], rfl⟩
  | cons c t ih =>
    obtain ⟨hc, ht⟩ := isWhole_cons.mp h
    obtain ⟨cs, hcs⟩ := ih ht
    cases c with
    | half place => cases hc
    | char d =>
      have hcs' : t.mapM CodePoint.char? = some cs := hcs
      exact ⟨d :: cs, by simp [chars?, CodePoint.char?, hcs']⟩

end Text

end Regraft

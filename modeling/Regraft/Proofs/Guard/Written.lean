import Regraft.Proofs.Guard.Layout
/-!
# The text of written guards

A file is read line by line, so what is written for a guard must not break a line: it holds characters of a line
only (`Guard.Over.inLine_written`) if the guard does. And it does not end with an empty line
(`Guard.Fits.getLast?_written`), which would be lost at the end of a file without a last line end.
-/
namespace Regraft

/-- A character that a line of a file can hold. -/
def InLine (c : CodePoint) : Prop := c ≠ char '\n' ∧ c ≠ char '\r' ∧ c.isHalf = false

instance decidableInLine : DecidablePred InLine := fun c =>
  inferInstanceAs (Decidable (c ≠ char '\n' ∧ c ≠ char '\r' ∧ c.isHalf = false))

section
variable {tag : Tag} {g : Guard}

theorem inLine_of_isWordChar {c : CodePoint} (h : isWordChar c = true) : InLine c := by
  cases c with
  | half place => simp [isWordChar, CodePoint.isAlphanum, CodePoint.isIn] at h
  | char c =>
    refine ⟨?_, ?_, rfl⟩
    · intro hc
      rw [hc] at h
      revert h
      decide
    · intro hc
      rw [hc] at h
      revert h
      decide

/-! ## Characters -/

theorem inLine_formatNote (hid : tag.IsIdentifier) {comment : Text} (h : ∀ c ∈ comment, InLine c) (deletion : Bool) :
    ∀ c ∈ tag.formatNote comment deletion, InLine c := by
  have htag : ∀ c ∈ tag.text, InLine c := fun c hc => inLine_of_isWordChar (hid c hc)
  have hmark : ∀ c ∈ ("// " : Text), InLine c := by decide
  have hdash : ∀ c ∈ (if deletion then [char '-'] else []), InLine c := by cases deletion <;> decide
  simp only [Tag.formatNote, List.forall_mem_append]
  exact ⟨⟨⟨hmark, htag⟩, hdash⟩, h⟩

theorem inLine_formatEnd (hid : tag.IsIdentifier) {indent : Text} (h : ∀ c ∈ indent, InLine c) :
    ∀ c ∈ tag.formatEnd indent, InLine c := by
  have htag : ∀ c ∈ tag.text, InLine c := fun c hc => inLine_of_isWordChar (hid c hc)
  have hmark : ∀ c ∈ ("// " : Text), InLine c := by decide
  have hword : ∀ c ∈ (": End" : Text), InLine c := by decide
  simp only [Tag.formatEnd, List.forall_mem_append]
  exact ⟨⟨⟨h, hmark⟩, htag⟩, hword⟩

/-- Written, a guard holds characters of a line only, if it does. -/
theorem Guard.Over.inLine_written (hid : tag.IsIdentifier) (h : g.Over InLine) :
    ∀ l ∈ g.written tag, ∀ c ∈ l, InLine c := by
  have hnote := inLine_formatNote hid h.comment g.deletion
  have hword : ∀ c ∈ (": Begin" : Text), InLine c := by decide
  have hspace : ∀ c ∈ [char ' '], InLine c := by decide
  unfold Guard.written
  cases g.style with
  | block =>
    have hfirst : ∀ c ∈ tag.formatBegin g.indent g.comment g.deletion, InLine c := by
      simp only [Tag.formatBegin, List.forall_mem_append]
      exact ⟨⟨h.indent, hnote⟩, hword⟩
    simp only [List.forall_mem_cons, List.forall_mem_append]
    exact ⟨hfirst, h.lines, by simpa using inLine_formatEnd hid h.indent⟩
  | singleLine =>
    intro l hl
    obtain ⟨line, hline, rfl⟩ := List.mem_map.mp hl
    simp only [Tag.formatTrailing, List.forall_mem_append]
    exact ⟨⟨h.lines line hline, hspace⟩, hnote⟩
  | nextLine =>
    simp only [List.forall_mem_cons, Tag.formatMarker, List.forall_mem_append]
    exact ⟨⟨h.indent, hnote⟩, h.lines⟩

/-! ## Last lines -/

theorem ne_nil_of_mem_getLast?_append {xs ys : List Text} (hxs : ∀ l ∈ xs.getLast?, l ≠ [])
    (hys : ∀ l ∈ ys.getLast?, l ≠ []) : ∀ l ∈ (xs ++ ys).getLast?, l ≠ [] := by
  intro l hl
  rw [List.getLast?_append] at hl
  cases hlast : ys.getLast? with
  | none =>
    rw [hlast, Option.none_or] at hl
    exact hxs l hl
  | some last =>
    rw [hlast, Option.some_or] at hl
    exact hys l (hlast ▸ hl)

/-- A written guard ends with a line that is not empty. -/
theorem Guard.Fits.getLast?_written (h : g.Fits tag) :
    g.written tag ≠ [] ∧ ∀ l ∈ (g.written tag).getLast?, l ≠ [] := by
  obtain ⟨style, deletion, comment, indent, lines⟩ := g
  have hstyled := h.styled
  cases style with
  | block =>
    refine ⟨by simp [Guard.written], ?_⟩
    simp only [Guard.written, ← List.cons_append, List.getLast?_concat]
    intro l hx
    cases hx
    simp [Tag.formatEnd, tag.ne_nil]
  | singleLine =>
    obtain ⟨-, code, rfl, -⟩ := hstyled
    simp [Guard.written, Tag.formatTrailing]
  | nextLine =>
    obtain ⟨-, line, rfl, hb, -⟩ := hstyled
    refine ⟨by simp [Guard.written], ?_⟩
    intro l hx heq
    cases hx
    subst heq
    cases hb

/-- Guards one behind the other end with a line that is not empty. -/
theorem getLast?_flatMap_written {guards : List Guard} (h : ∀ g ∈ guards, g.Fits tag) :
    ∀ l ∈ (guards.flatMap (Guard.written tag)).getLast?, l ≠ [] := by
  induction guards with
  | nil => simp
  | cons g guards ih =>
    have hrest := ih fun a ha => h a (List.mem_cons_of_mem _ ha)
    exact ne_nil_of_mem_getLast?_append (h g List.mem_cons_self).getLast?_written.2 hrest

end

end Regraft

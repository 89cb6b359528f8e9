import Regraft.Proofs.Guard.Form
import Regraft.Proofs.Text.Reread
/-!
# Mentions of the tag

The tag is mentioned wherever it stands behind a comment mark (`mentions_iff`), which is less than a guard comment asks
for. So a line without a mention carries no guard (`classify_of_not_mentions`), and a text without one has no line with
a guard, though it is looked at as a whole and its lines one by one.

* `mentions_of_mem_lines`: a text mentions the tag that one of its lines mentions;
* `mentions_of_guarded`: every guard comment mentions the tag;
* `formats_read`: the writers of guard comments against the four readers.
-/
namespace Regraft

namespace Tag

variable {tag : Tag}

theorem mentions_iff {t : Text} :
    tag.mentions t = true ↔ ∃ before mark, t = before ++ mark ∧ (tag.head? mark).isSome = true := by
  constructor
  · induction t with
    | nil => exact fun h => by cases h
    | cons c cs ih =>
      intro h
      rcases Bool.or_eq_true_iff.mp h with h | h
      · exact ⟨[], c :: cs, rfl, h⟩
      · obtain ⟨before, mark, rfl, hmark⟩ := ih h
        exact ⟨c :: before, mark, rfl, hmark⟩
  · intro hx
    obtain ⟨before, mark, rfl, hmark⟩ := hx
    induction before with
    | nil =>
      obtain ⟨rest, rfl⟩ := exists_of_head? hmark
      exact Bool.or_eq_true_iff.mpr (.inl hmark)
    | cons c before ih => exact Bool.or_eq_true_iff.mpr (.inr ih)

theorem mentions_append_left {t : Text} (s : Text) (h : tag.mentions (s ++ t) = false) : tag.mentions t = false := by
  induction s with
  | nil => exact h
  | cons c s ih =>
    exact ih (Bool.or_eq_false_iff.mp h).2

theorem head?_of_not_mentions {t : Text} (h : tag.mentions t = false) : tag.head? t = none := by
  cases t with
  | nil => rfl
  | cons c t =>
    simpa using (Bool.or_eq_false_iff.mp h).1

/-- A text that mentions the tag holds its text. -/
theorem text_sublist {t : Text} (h : tag.mentions t = true) : tag.text.Sublist t := by
  obtain ⟨before, mark, rfl, hmark⟩ := (mentions_iff ..).mp h
  obtain ⟨tail, htail⟩ := Option.isSome_iff_exists.mp hmark
  have hsublist := (List.sublist_append_left _ _).trans (text_append_sublist htail)
  exact hsublist.trans (List.sublist_append_right _ _)

/-! ## Lines without a mention -/

theorem unmarked_of_not_mentions {line : Text} (h : tag.mentions line = false) :
    tag.head? (afterIndent line) = none := by
  rw [← leadingIndent_append_afterIndent line] at h
  exact head?_of_not_mentions (mentions_append_left _ h)

theorem trailing?_of_not_mentions {line : Text} (h : tag.mentions line = false) : tag.trailing? line = none := by
  induction line with
  | nil => rfl
  | cons c cs ih =>
    have hcs : tag.mentions cs = false := mentions_append_left [c] h
    have hgap : tag.head? (cs.dropWhile isGap) = none := by
      refine head?_of_not_mentions (mentions_append_left (cs.takeWhile isGap) ?_)
      rwa [List.takeWhile_append_dropWhile]
    have hguard : tag.trailingGuard? cs = none := by
      have hblank : (fun c : CodePoint => c == char ' ' || c == char '\t') = isGap := rfl
      simp only [trailingGuard?, hblank, hgap]
    simp only [trailing?_eq, hguard, ih hcs]
    simp

theorem plain_of_not_mentions {line : Text} (h : tag.mentions line = false) : tag.Plain line :=
  ⟨unmarked_of_not_mentions h, trailing?_of_not_mentions h⟩

/-- A line without a mention carries no guard. -/
theorem classify_of_not_mentions {line : Text} (h : tag.mentions line = false) : tag.classify line = .plain := by
  rw [classify_unmarked (unmarked_of_not_mentions h), trailing?_of_not_mentions h]

/-- A line without a comment mark in front is neither an End nor a Begin nor a guard of the next line. -/
theorem readers_unmarked {line : Text} (h : tag.head? (afterIndent line) = none) :
    tag.isEnd line = false ∧ tag.begin? line = none ∧ tag.marker? line = none := by
  simp only [isEnd, begin?, marker?, h, and_self]

/-- Every guard comment mentions the tag. -/
theorem mentions_of_guarded {line : Text} (h : tag.isEnd line = true ∨ (tag.begin? line).isSome = true ∨
    (tag.marker? line).isSome = true ∨ (tag.trailing? line).isSome = true) : tag.mentions line = true := by
  by_contra hno
  rw [Bool.not_eq_true] at hno
  obtain ⟨hend, hbegin, hmarker⟩ := readers_unmarked (unmarked_of_not_mentions hno)
  simp [hend, hbegin, hmarker, trailing?_of_not_mentions hno] at h

/-! ## Texts and their lines -/

/-- A text mentions the tag that one of its lines mentions, for a line end does not continue the tag. -/
theorem mentions_of_mem_lines {t line : Text} (hline : line ∈ (Buffer.ofText t).lines)
    (h : tag.mentions line = true) : tag.mentions t = true := by
  obtain ⟨before, behind, rfl, hbehind⟩ := Buffer.exists_of_mem_lines hline
  obtain ⟨front, mark, rfl, hmark⟩ := mentions_iff.mp h
  obtain ⟨tail, htail⟩ := Option.isSome_iff_exists.mp hmark
  have hedge : ∀ c ∈ behind.head?, isWordChar c = false := by
    intro c hc
    rcases hbehind c hc with rfl | rfl <;> decide
  refine mentions_iff.mpr ⟨before ++ front, mark ++ behind, by simp, ?_⟩
  rw [head?_append_right htail hedge]
  rfl

/-- The lines of a text without a mention have none. -/
theorem not_mentions_of_mem_lines {t : Text} (h : tag.mentions t = false) :
    ∀ line ∈ (Buffer.ofText t).lines, tag.mentions line = false := by
  intro line hline
  by_contra hno
  rw [Bool.not_eq_false] at hno
  rw [mentions_of_mem_lines hline hno] at h
  cases h

/-! ## Writing and reading -/

/-- The readers of guard comments read what the writers write. A Begin, a guard of the next line and a guard behind code
come back with the same indent or code, the same dash and the same comment, an End is an End, and neither a Begin nor
a line with a guard behind its code is read as another guard. -/
theorem formats_read (hid : tag.IsIdentifier) {indent comment : Text} {deletion : Bool}
    (hi : allBlank indent = true) (hc : NoteFits deletion comment) :
    tag.begin? (tag.formatBegin indent comment deletion) = some ⟨indent, deletion, comment⟩ ∧
      tag.marker? (tag.formatMarker indent comment deletion) = some ⟨indent, deletion, comment⟩ ∧
      tag.isEnd (tag.formatEnd indent) = true ∧
      (∀ line, (tag.begin? line).isSome = true → tag.isEnd line = false) ∧
      ∀ code, EndsSolid code → OneLine code → tag.mentions code = false →
        tag.trailing? (tag.formatTrailing code comment deletion) = some ⟨code, deletion, comment⟩ ∧
          tag.begin? (tag.formatTrailing code comment deletion) = none ∧
          tag.isEnd (tag.formatTrailing code comment deletion) = false ∧
          tag.marker? (tag.formatTrailing code comment deletion) = none := by
  refine ⟨begin?_formatBegin hid hi hc, marker?_formatMarker hid hi hc, isEnd_formatEnd hid hi,
    fun _ => isEnd_of_begin?, fun code hsolid hl hno => ?_⟩
  obtain ⟨hunmarked, huntrailed⟩ := plain_of_not_mentions hno
  obtain ⟨hend, hbegin, hmarker⟩ :=
    readers_unmarked (unmarked_formatTrailing hid hsolid hunmarked comment deletion)
  exact ⟨trailing?_formatTrailing hid hl hsolid huntrailed hc, hbegin, hend, hmarker⟩

/-- A comment that looks like an End and a Begin, and code with a comment of its own behind it. -/
theorem formats_read_sample :
    let tag : Tag := ⟨"Tag", by decide, by decide⟩
    let indent : Text := "\t "
    let comment : Text := ": End: Begin"
    let code : Text := "f(); // Tags"
    tag.IsIdentifier ∧ allBlank indent = true ∧ NoteFits false comment ∧ EndsSolid code ∧ OneLine code ∧
      tag.mentions code = false ∧
      tag.begin? (tag.formatBegin indent comment false) = some ⟨indent, false, comment⟩ ∧
      tag.marker? (tag.formatMarker indent comment false) = some ⟨indent, false, comment⟩ ∧
      tag.isEnd (tag.formatEnd indent) = true ∧ tag.isEnd (tag.formatBegin indent comment false) = false ∧
      tag.trailing? (tag.formatTrailing code comment false) = some ⟨code, false, comment⟩ ∧
      tag.begin? (tag.formatTrailing code comment false) = none ∧
      tag.isEnd (tag.formatTrailing code comment false) = false ∧
      tag.marker? (tag.formatTrailing code comment false) = none := by
  intro tag indent comment code
  have hid : tag.IsIdentifier := by unfold IsIdentifier; decide
  have hi : allBlank indent = true := by decide
  have hc : NoteFits false comment := ⟨by unfold OneLine; decide, by decide⟩
  have hsolid : EndsSolid code := ⟨char 's', by decide, by decide⟩
  have hl : OneLine code := by unfold OneLine; decide
  have hno : tag.mentions code = false := by decide
  obtain ⟨hbegin, hmarker, hend, hapart, htrailing⟩ := formats_read hid hi hc
  exact ⟨hid, hi, hc, hsolid, hl, hno, hbegin, hmarker, hend, hapart _ (by rw [hbegin]; rfl),
    htrailing code hsolid hl hno⟩

end Tag

end Regraft

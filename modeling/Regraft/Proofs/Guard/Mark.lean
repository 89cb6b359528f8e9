import Regraft.Guard.Tag
import Regraft.Proofs.Text.Scan
/-!
# Comment marks with the tag

Every reader of guard comments looks for a comment mark with the tag behind it (`Tag.head?`), and then at
what follows. This module says what is found in a text put together from parts, for tags that are
identifiers:

* `head?_append_right`: a mark that was found stays found when more text follows;
* `head?_append_guard`: a guard behind a line does not make a mark at the start of the line.
-/
namespace Regraft

/-- A tag of letters, digits and underscores. -/
def Tag.IsIdentifier (tag : Tag) : Prop := ∀ c ∈ tag.text, isWordChar c = true

namespace Tag

variable {tag : Tag}

theorem IsIdentifier.not_mem (hid : tag.IsIdentifier) {c : CodePoint} (h : isWordChar c = false) :
    c ∉ tag.text := by
  intro hc
  rw [hid c hc] at h
  cases h

theorem IsIdentifier.head?_solid (hid : tag.IsIdentifier) (t : Text) :
    ∀ c ∈ (tag.text ++ t).head?, isBlank c = false := by
  intro c hc
  cases htag : tag.text with
  | nil => exact absurd htag tag.ne_nil
  | cons d ds =>
    obtain rfl : d = c := by simpa [htag] using hc
    exact isBlank_of_isWordChar (hid d (by simp [htag]))

theorem IsIdentifier.after?_slash (hid : tag.IsIdentifier) (rest : Text) :
    after? tag.text (char '/' :: rest) = none := by
  cases htag : tag.text with
  | nil => exact absurd htag tag.ne_nil
  | cons c cs =>
    have hc : c ≠ char '/' := by
      intro h
      subst h
      exact absurd (hid (char '/') (by simp [htag])) (by decide)
    simp [after?, hc]

/-! ## Finding a mark -/

theorem head?_slashes (rest : Text) :
    tag.head? (char '/' :: char '/' :: rest) =
      (after? tag.text (rest.dropWhile isBlank)).filter fun tail => tail.head?.all (!isWordChar ·) := by
  simp only [head?]
  cases after? tag.text (rest.dropWhile isBlank) with
  | none => rfl
  | some tail =>
    cases tail with
    | nil => rfl
    | cons c tail => cases h : isWordChar c <;> simp [h, Option.filter]

/-- A mark is two slashes, blanks and the whole tag. -/
theorem head?_eq_some_iff (hid : tag.IsIdentifier) {t tail : Text} :
    tag.head? t = some tail ↔ (∀ c ∈ tail.head?, isWordChar c = false) ∧
      ∃ ws, (∀ c ∈ ws, isBlank c = true) ∧ t = char '/' :: char '/' :: (ws ++ (tag.text ++ tail)) := by
  have hedge : (tail.head?.all fun c => !isWordChar c) = true ↔ ∀ c ∈ tail.head?, isWordChar c = false := by
    cases tail <;> simp
  constructor
  · intro h
    obtain ⟨rest, rfl⟩ : ∃ rest, t = char '/' :: char '/' :: rest := by
      unfold head? at h
      split at h
      · exact ⟨_, rfl⟩
      · cases h
    rw [head?_slashes, Option.filter_eq_some_iff, hedge, after?_eq_some_iff] at h
    refine ⟨h.2, rest.takeWhile isBlank, fun c hc => List.mem_takeWhile_imp hc, ?_⟩
    rw [← h.1, List.takeWhile_append_dropWhile]
  · intro hx
    obtain ⟨hc, ws, hws, rfl⟩ := hx
    rw [head?_slashes, Option.filter_eq_some_iff, hedge, after?_eq_some_iff]
    exact ⟨dropWhile_isBlank_append hws (hid.head?_solid tail), hc⟩

/-- The tag stands in a text in front of what is behind the mark. -/
theorem text_append_sublist {t tail : Text} (h : tag.head? t = some tail) : (tag.text ++ tail).Sublist t := by
  unfold head? at h
  split at h
  · rename_i rest
    have htail : after? tag.text (rest.dropWhile isBlank) = some tail := by
      split at h
      · rename_i hafter
        split at h
        · cases h
        · exact hafter.trans h
      · exact h
    rw [after?_eq_some_iff] at htail
    have hdrop : (rest.dropWhile isBlank).Sublist rest := List.dropWhile_sublist _
    rw [htail] at hdrop
    exact hdrop.trans ((List.sublist_cons_self _ _).trans (List.sublist_cons_self _ _))
  · cases h

theorem head?_sublist {t tail : Text} (h : tag.head? t = some tail) : tail.Sublist t :=
  (List.sublist_append_right _ _).trans (text_append_sublist h)

/-- A mark is two slashes. -/
theorem exists_of_head? {t : Text} (h : (tag.head? t).isSome = true) :
    ∃ rest, t = char '/' :: char '/' :: rest := by
  unfold head? at h
  split at h
  · exact ⟨_, rfl⟩
  · cases h

/-- A mark that is found in a text is found when more text follows, unless that continues the tag. -/
theorem head?_append_right {t tail rest : Text} (h : tag.head? t = some tail)
    (hrest : ∀ c ∈ rest.head?, isWordChar c = false) : tag.head? (t ++ rest) = some (tail ++ rest) := by
  obtain ⟨x, rfl⟩ := exists_of_head? (h ▸ rfl : (tag.head? t).isSome = true)
  rw [head?_slashes, Option.filter_eq_some_iff, after?_eq_some_iff] at h
  obtain ⟨hdrop, hedge⟩ := h
  -- The blanks behind the slashes end in the text itself, for the tag is not empty.
  have hsolid : x.dropWhile isBlank ≠ [] := by simp [hdrop, tag.ne_nil]
  have hmore : (x ++ rest).dropWhile isBlank = tag.text ++ (tail ++ rest) := by
    rw [List.dropWhile_append, if_neg (by simpa using hsolid), hdrop, List.append_assoc]
  rw [List.cons_append, List.cons_append, head?_slashes, Option.filter_eq_some_iff, after?_eq_some_iff]
  refine ⟨hmore, ?_⟩
  cases tail with
  | cons c tail => exact hedge
  | nil =>
    cases rest with
    | nil => rfl
    | cons d rest => simp [hrest d rfl]

theorem head?_eq_none_of_append {t rest : Text} (h : tag.head? (t ++ rest) = none)
    (hrest : ∀ c ∈ rest.head?, isWordChar c = false) : tag.head? t = none := by
  cases ht : tag.head? t with
  | none => rfl
  | some tail =>
    rw [head?_append_right ht hrest] at h
    cases h

/-- The comment that guards a line from behind makes no mark at the start of the line. -/
theorem head?_append_guard (hid : tag.IsIdentifier) {t : Text} (hsolid : EndsSolid t)
    (h : tag.head? t = none) (rest : Text) : tag.head? (t ++ char ' ' :: char '/' :: rest) = none := by
  have hblank : char ' ' ∉ tag.text := hid.not_mem (by decide)
  match t, hsolid, h with
  | [], hsolid, _ => exact absurd rfl hsolid.ne_nil
  | [c], _, _ =>
    unfold head?
    split
    · rename_i hc
      simp at hc
    · rfl
  | c :: d :: t, hsolid, h =>
    by_cases hcd : c = char '/' ∧ d = char '/'
    · obtain ⟨rfl, rfl⟩ := hcd
      rw [head?_slashes] at h
      rw [List.cons_append, List.cons_append, head?_slashes]
      by_cases ht : t = []
      · subst ht
        have hdrop : (char ' ' :: char '/' :: rest).dropWhile isBlank = char '/' :: rest :=
          @dropWhile_isBlank_append [char ' '] _ (by decide) (not_blank_slash _)
        rw [List.nil_append, hdrop, hid.after?_slash]
        rfl
      · have hs : EndsSolid t := (hsolid.of_cons (by simp)).of_cons ht
        obtain ⟨happ, -⟩ := @dropWhile_append_of_endsSolid isBlank (fun _ h => h) _ hs
          (char ' ' :: char '/' :: rest)
        rw [happ, after?_append_of_not_mem hblank tag.ne_nil]
        cases hx : after? tag.text (t.dropWhile isBlank) with
        | none => rfl
        | some tail =>
          rw [hx] at h
          cases tail with
          | nil => simp [Option.filter] at h
          | cons e tail =>
            have he : isWordChar e = true := by simpa [Option.filter] using h
            simp [Option.filter, he]
    · unfold head?
      split
      · rename_i hc
        simp only [List.cons_append, List.cons.injEq] at hc
        exact absurd ⟨hc.1, hc.2.1⟩ hcd
      · rfl

end Tag

end Regraft

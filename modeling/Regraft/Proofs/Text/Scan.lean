import Regraft.Text.Comment
import Mathlib.Data.List.TakeWhile
/-!
# Scanning lines

What the scanners for blanks, comments and line ends do with texts that are put together from parts.

* `uncomment?_commentOut`: taking a line out of the code can be undone;
* `commentOut_inverse`: putting a line back can be undone if and only if the comment is tidy (`IsTidy`).
-/
namespace Regraft

/-- A text without line feeds. -/
def OneLine (t : Text) : Prop := ∀ c ∈ t, c ≠ char '\n'

/-- A text that ends with a character other than a blank. -/
def EndsSolid (t : Text) : Prop := ∃ c, t.getLast? = some c ∧ isBlank c = false

theorem OneLine.append {s t : Text} (hs : OneLine s) (ht : OneLine t) : OneLine (s ++ t) := by
  intro c hc
  rcases List.mem_append.mp hc with hc | hc
  · exact hs c hc
  · exact ht c hc

theorem OneLine.of_sublist {s t : Text} (ht : OneLine t) (h : s.Sublist t) : OneLine s :=
  fun c hc => ht c (h.subset hc)

theorem EndsSolid.ne_nil {t : Text} (h : EndsSolid t) : t ≠ [] := by
  intro hx
  subst hx
  obtain ⟨c, hc, -⟩ := h
  cases hc

theorem EndsSolid.append_left {t : Text} (h : EndsSolid t) (s : Text) : EndsSolid (s ++ t) := by
  obtain ⟨c, hc, hb⟩ := h
  exact ⟨c, by simp [List.getLast?_append, hc], hb⟩

/-- What is left of a text behind its first character still ends as the text does. -/
theorem EndsSolid.of_cons {c : CodePoint} {t : Text} (h : EndsSolid (c :: t)) (ht : t ≠ []) :
    EndsSolid t := by
  obtain ⟨d, hd, hb⟩ := h
  exact ⟨d, by rwa [List.getLast?_cons_of_ne_nil ht] at hd, hb⟩

theorem not_allBlank_of_endsSolid {t : Text} (h : EndsSolid t) : allBlank t = false := by
  obtain ⟨c, hc, hb⟩ := h
  simp only [allBlank, List.all_eq_false]
  exact ⟨c, List.mem_of_getLast? hc, by simp [hb]⟩

/-! ## Blanks -/

/-- Dropping blanks from the start of a text never gets past a character that is none. -/
theorem dropWhile_append_of_endsSolid {p : CodePoint → Bool} (hp : ∀ c, p c = true → isBlank c = true)
    {t : Text} (h : EndsSolid t) (rest : Text) :
    (t ++ rest).dropWhile p = t.dropWhile p ++ rest ∧ EndsSolid (t.dropWhile p) := by
  induction t with
  | nil => exact absurd rfl h.ne_nil
  | cons c t ih =>
    by_cases hc : p c = true
    · have ht : t ≠ [] := by
        intro hx
        subst hx
        obtain ⟨d, hd, hb⟩ := h
        obtain rfl : c = d := by simpa using hd
        simp [hp c hc] at hb
      simpa [hc] using ih (h.of_cons ht)
    · simpa [hc] using h

theorem dropWhile_isBlank_append {ws t : Text} (hws : ∀ c ∈ ws, isBlank c = true)
    (ht : ∀ c ∈ t.head?, isBlank c = false) : (ws ++ t).dropWhile isBlank = t := by
  rw [List.dropWhile_append_of_pos hws]
  exact dropWhile_eq_self ht

theorem takeWhile_isBlank_append {ws t : Text} (hws : ∀ c ∈ ws, isBlank c = true)
    (ht : ∀ c ∈ t.head?, isBlank c = false) : (ws ++ t).takeWhile isBlank = ws := by
  rw [List.takeWhile_append_of_pos hws]
  cases t with
  | nil => simp
  | cons c t => simp [ht c (by simp)]

theorem leadingIndent_append_afterIndent (t : Text) : leadingIndent t ++ afterIndent t = t :=
  List.takeWhile_append_dropWhile

theorem leadingIndent_blank (t : Text) : ∀ c ∈ leadingIndent t, isBlank c = true := by
  intro c hc
  exact List.mem_takeWhile_imp hc

/-- The indent of a line ends where the first character stands that is no blank. -/
theorem head?_afterIndent (t : Text) : ∀ c ∈ (afterIndent t).head?, isBlank c = false :=
  head?_dropWhile_not t

theorem allBlank_iff_afterIndent {t : Text} : allBlank t = true ↔ afterIndent t = [] := by
  simp [allBlank, afterIndent, List.dropWhile_eq_nil_iff]

theorem leadingIndent_append {ws t : Text} (hws : ∀ c ∈ ws, isBlank c = true)
    (ht : ∀ c ∈ t.head?, isBlank c = false) : leadingIndent (ws ++ t) = ws :=
  takeWhile_isBlank_append hws ht

theorem afterIndent_append {ws t : Text} (hws : ∀ c ∈ ws, isBlank c = true)
    (ht : ∀ c ∈ t.head?, isBlank c = false) : afterIndent (ws ++ t) = t :=
  dropWhile_isBlank_append hws ht

/-! ## Letters and digits -/

theorem isUpper_iff_toNat {c : Char} : c.isUpper = true ↔ 65 ≤ c.toNat ∧ c.toNat ≤ 90 := by
  have hclass : c.isUpper = decide (65 ≤ c.val ∧ c.val ≤ 90) := rfl
  rw [hclass, decide_eq_true_iff, UInt32.le_iff_toNat_le, UInt32.le_iff_toNat_le]
  rfl

theorem isLower_iff_toNat {c : Char} : c.isLower = true ↔ 97 ≤ c.toNat ∧ c.toNat ≤ 122 := by
  have hclass : c.isLower = (decide (97 ≤ c.val) && decide (c.val ≤ 122)) := rfl
  rw [hclass, Bool.and_eq_true, decide_eq_true_iff, decide_eq_true_iff, UInt32.le_iff_toNat_le, UInt32.le_iff_toNat_le]
  rfl

theorem toNat_of_isAlphanum {c : CodePoint} (h : c.isAlphanum = true) :
    48 ≤ c.toNat ∧ c.toNat ≤ 57 ∨ 65 ≤ c.toNat ∧ c.toNat ≤ 90 ∨ 97 ≤ c.toNat ∧ c.toNat ≤ 122 := by
  cases c with
  | half place => cases h
  | char c =>
    have hclass : (c.isUpper || c.isLower || c.isDigit) = true := h
    rw [Bool.or_eq_true, Bool.or_eq_true, isUpper_iff_toNat, isLower_iff_toNat, Char.isDigit_iff_toNat] at hclass
    rcases hclass with (hupper | hlower) | hdigit
    · exact .inr (.inl hupper)
    · exact .inr (.inr hlower)
    · exact .inl hdigit

/-- No character of an identifier is a blank. -/
theorem isBlank_of_isWordChar {c : CodePoint} (h : isWordChar c = true) : isBlank c = false := by
  rcases Bool.or_eq_true_iff.mp h with halphanum | hline
  · have hrange := toNat_of_isAlphanum halphanum
    refine Bool.eq_false_iff.mpr fun hb => ?_
    simp only [isBlank, Bool.or_eq_true, Bool.and_eq_true, decide_eq_true_eq, beq_iff_eq] at hb
    omega
  · obtain rfl : c = char '_' := by simpa using hline
    decide

/-! ## Line ends and starts -/

theorem untilBreak?_eq {t : Text} (h : OneLine t) : untilBreak? t = some t := by
  have ht : t.takeWhile (fun c => decide (c ≠ char '\n')) = t :=
    List.takeWhile_eq_self_iff.mpr fun c hc => by simpa using h c hc
  simp only [untilBreak?, ht, List.drop_length]

/-- A word without a separator is found before the separator or not at all. -/
theorem after?_append_of_not_mem {start : Text} {sep : CodePoint} (h : sep ∉ start) (hs : start ≠ [])
    (t rest : Text) : after? start (t ++ sep :: rest) = (after? start t).map (· ++ sep :: rest) := by
  induction start generalizing t with
  | nil => exact absurd rfl hs
  | cons c cs ih =>
    cases t with
    | nil =>
      have hc : c ≠ sep := fun hc => h (by simp [hc])
      simp [after?, hc]
    | cons d ds =>
      by_cases hcd : c = d
      · cases cs with
        | nil => simp [after?, hcd]
        | cons c' cs => simpa [after?, hcd] using ih (fun hm => h (List.mem_cons_of_mem _ hm)) (by simp) ds
      · simp [after?, hcd]

/-! ## Comments -/

theorem dropSpace_sublist (t : Text) : (dropSpace t).Sublist t := by
  unfold dropSpace
  split
  · exact List.sublist_cons_self _ _
  · exact List.Sublist.refl _

theorem dropEndWhile_concat_of_pos {p : CodePoint → Bool} {c : CodePoint} (h : p c = true) (t : Text) :
    dropEndWhile p (t ++ [c]) = dropEndWhile p t := by
  rw [dropEndWhile, List.reverse_concat, List.dropWhile_cons_of_pos h, dropEndWhile]

theorem dropEndWhile_concat_of_neg {p : CodePoint → Bool} {c : CodePoint} (h : p c = false) (t : Text) :
    dropEndWhile p (t ++ [c]) = t ++ [c] := by
  rw [dropEndWhile, List.reverse_concat, List.dropWhile_cons_of_neg (by simp [h]), List.reverse_cons, List.reverse_reverse]

/-- Behind what is left of a text stood characters of the class. -/
theorem exists_dropEndWhile_eq (p : CodePoint → Bool) (t : Text) :
    ∃ rest, t = dropEndWhile p t ++ rest ∧ ∀ c ∈ rest, p c = true := by
  refine ⟨(t.reverse.takeWhile p).reverse, ?_, fun c hc => List.mem_takeWhile_imp (List.mem_reverse.mp hc)⟩
  rw [dropEndWhile, ← List.reverse_append, List.takeWhile_append_dropWhile, List.reverse_reverse]

/-- Around a trimmed text stood characters of the class. -/
theorem exists_trimWhile_eq (p : CodePoint → Bool) (t : Text) : ∃ front rest, t = front ++ trimWhile p t ++ rest ∧
    (∀ c ∈ front, p c = true) ∧ ∀ c ∈ rest, p c = true := by
  obtain ⟨rest, hrest, hclass⟩ := exists_dropEndWhile_eq p (t.dropWhile p)
  refine ⟨t.takeWhile p, rest, ?_, fun c hc => List.mem_takeWhile_imp hc, hclass⟩
  rw [List.append_assoc, trimWhile, ← hrest, List.takeWhile_append_dropWhile]

theorem dropEndWhile_sublist (p : CodePoint → Bool) (t : Text) : (dropEndWhile p t).Sublist t := by
  obtain ⟨rest, hrest, -⟩ := exists_dropEndWhile_eq p t
  have hsublist := List.sublist_append_left (dropEndWhile p t) rest
  rwa [← hrest] at hsublist

theorem trimWhile_sublist (p : CodePoint → Bool) (t : Text) : (trimWhile p t).Sublist t :=
  (dropEndWhile_sublist p _).trans (List.dropWhile_sublist p)

theorem untilBreak?_sublist {t line : Text} (h : untilBreak? t = some line) : line.Sublist t := by
  simp only [untilBreak?] at h
  split at h
  · exact Option.some.inj h ▸ List.takeWhile_sublist _
  · exact Option.some.inj h ▸ List.takeWhile_sublist _
  · cases h

/-- What is uncommented stands in the comment. -/
theorem uncomment?_sublist {line stock : Text} (h : uncomment? line = some stock) : stock.Sublist line := by
  unfold uncomment? at h
  split at h
  · rename_i rest hrest
    obtain ⟨inner, hinner, rfl⟩ := Option.map_eq_some_iff.mp h
    have hsub : inner.Sublist (char '/' :: char '/' :: rest) :=
      ((untilBreak?_sublist hinner).trans (dropSpace_sublist rest)).trans
        ((List.sublist_cons_self _ _).trans (List.sublist_cons_self _ _))
    rw [← hrest] at hsub
    simpa only [leadingIndent_append_afterIndent] using List.Sublist.append (List.Sublist.refl (leadingIndent line)) hsub
  · cases h

/-- A commented line is its indent, a comment mark and the rest. -/
theorem uncomment?_eq_some {line stock : Text} (hl : OneLine line) :
    uncomment? line = some stock ↔
      ∃ rest, afterIndent line = char '/' :: char '/' :: rest ∧
        stock = leadingIndent line ++ dropSpace rest := by
  have hsub : (afterIndent line).Sublist line := List.dropWhile_sublist _
  unfold uncomment?
  split
  · rename_i rest hr
    have hrest : OneLine (dropSpace rest) := by
      refine hl.of_sublist ((dropSpace_sublist rest).trans (List.Sublist.trans ?_ hsub))
      rw [hr]
      exact (List.sublist_cons_self _ _).trans (List.sublist_cons_self _ _)
    rw [untilBreak?_eq hrest]
    constructor
    · intro hx
      cases hx
      exact ⟨rest, hr, rfl⟩
    · intro hx
      obtain ⟨rest', hr', rfl⟩ := hx
      obtain rfl : rest = rest' := by simpa [hr] using hr'
      rfl
  · rename_i hno
    constructor
    · intro h
      cases h
    · intro hx
      obtain ⟨rest, hr, -⟩ := hx
      exact absurd hr (hno rest)

theorem commentOut_eq (line : Text) :
    commentOut line = leadingIndent line ++ char '/' :: char '/' ::
      (if afterIndent line = [] then [] else char ' ' :: afterIndent line) := by
  unfold commentOut
  split
  · rename_i h
    rw [if_pos h]
  · rename_i h
    rw [if_neg h]

/-- A line taken out of the code is made of its characters and those of the comment mark. -/
theorem over_commentOut {q : CodePoint → Prop} (hslash : q (char '/')) (hspace : q (char ' ')) {line : Text}
    (h : ∀ c ∈ line, q c) : ∀ c ∈ commentOut line, q c := by
  rw [commentOut_eq]
  intro c hc
  simp only [List.mem_append, List.mem_cons] at hc
  rcases hc with hc | rfl | rfl | hc
  · exact h c ((List.takeWhile_sublist _).subset hc)
  · exact hslash
  · exact hslash
  · split at hc
    · cases hc
    · rcases List.mem_cons.mp hc with rfl | hc
      · exact hspace
      · exact h c ((List.dropWhile_sublist _).subset hc)

theorem oneLine_commentOut {line : Text} (h : OneLine line) : OneLine (commentOut line) :=
  over_commentOut (by decide) (by decide) h

theorem not_blank_slash (rest : Text) : ∀ c ∈ (char '/' :: rest).head?, isBlank c = false := by
  intro c hc
  obtain rfl : char '/' = c := Option.some.inj hc
  decide

theorem afterIndent_commentOut (line : Text) :
    afterIndent (commentOut line) = char '/' :: char '/' ::
      (if afterIndent line = [] then [] else char ' ' :: afterIndent line) := by
  rw [commentOut_eq]
  exact afterIndent_append (leadingIndent_blank line) (not_blank_slash _)

theorem leadingIndent_commentOut (line : Text) : leadingIndent (commentOut line) = leadingIndent line := by
  rw [commentOut_eq]
  exact leadingIndent_append (leadingIndent_blank line) (not_blank_slash _)

theorem not_allBlank_commentOut (line : Text) : allBlank (commentOut line) = false := by
  rw [Bool.eq_false_iff, ne_eq, allBlank_iff_afterIndent, afterIndent_commentOut]
  exact List.cons_ne_nil _ _

/-- Taking a line out of the code can be undone. -/
theorem uncomment?_commentOut {line : Text} (h : OneLine line) :
    uncomment? (commentOut line) = some line := by
  refine (uncomment?_eq_some (oneLine_commentOut h)).mpr ⟨_, afterIndent_commentOut line, ?_⟩
  rw [leadingIndent_commentOut]
  split
  · rename_i hnil
    have := leadingIndent_append_afterIndent line
    rw [hnil] at this
    exact this.symm
  · exact (leadingIndent_append_afterIndent line).symm

/-- A comment behind some blanks in which the mark stands alone, or a space and a text that does not begin with a blank
follow it. -/
def IsTidy (line : Text) : Prop :=
  ∃ ws rest, allBlank ws = true ∧ line = ws ++ char '/' :: char '/' :: rest ∧
    (rest = [] ∨ ∃ c text, rest = char ' ' :: c :: text ∧ isBlank c = false)

/-- The tidy comments are those that lines are turned into when they are taken out of the code. -/
theorem isTidy_iff {line : Text} : IsTidy line ↔ ∃ stock, commentOut stock = line := by
  constructor
  · intro hx
    obtain ⟨ws, rest, hblank, rfl, hrest⟩ := hx
    have hws : ∀ c ∈ ws, isBlank c = true := List.all_eq_true.mp hblank
    rcases hrest with rfl | ⟨c, text, rfl, hc⟩
    · refine ⟨ws, ?_⟩
      rw [commentOut_eq, if_pos (allBlank_iff_afterIndent.mp hblank), leadingIndent, List.takeWhile_eq_self_iff.mpr hws]
    · have hsolid : ∀ d ∈ (c :: text).head?, isBlank d = false := by simpa using hc
      refine ⟨ws ++ c :: text, ?_⟩
      rw [commentOut_eq, leadingIndent_append hws hsolid, afterIndent_append hws hsolid, if_neg (List.cons_ne_nil c text)]
  · intro hx
    obtain ⟨stock, rfl⟩ := hx
    refine ⟨leadingIndent stock, _, List.all_eq_true.mpr (leadingIndent_blank stock), commentOut_eq stock, ?_⟩
    cases hafter : afterIndent stock with
    | nil => exact .inl (if_pos rfl)
    | cons c text =>
      exact .inr ⟨c, text, if_neg (List.cons_ne_nil c text), head?_afterIndent stock c (by rw [hafter]; rfl)⟩

theorem sublist_commentOut (line : Text) : line.Sublist (commentOut line) := by
  conv => lhs; rw [← leadingIndent_append_afterIndent line]
  rw [commentOut_eq]
  refine (List.Sublist.refl _).append ?_
  split
  · rename_i h
    rw [h]
    exact List.nil_sublist _
  · exact (((List.Sublist.refl _).cons _).cons _).cons _

/-- Taking a line out of the code and putting it back gives the line, and putting a commented line back and taking it out
again gives the comment if and only if that is tidy. -/
theorem commentOut_inverse {line : Text} (h : OneLine line) :
    uncomment? (commentOut line) = some line ∧
      ∀ stock, uncomment? line = some stock → (commentOut stock = line ↔ IsTidy line) := by
  refine ⟨uncomment?_commentOut h, fun stock hstock => ?_⟩
  rw [isTidy_iff]
  refine ⟨fun hback => ⟨stock, hback⟩, fun hx => ?_⟩
  -- What the line was made of is what it is put back to, since that can be undone.
  obtain ⟨origin, rfl⟩ := hx
  rw [uncomment?_commentOut (h.of_sublist (sublist_commentOut origin))] at hstock
  rw [Option.some.inj hstock]

/-- A comment that is commented out; the two marks stay apart. -/
theorem commentOut_inverse_nested :
    let line : Text := "\t// // a;"
    let stock : Text := "\t// a;"
    OneLine line ∧ uncomment? (commentOut line) = some line ∧ uncomment? line = some stock ∧
      commentOut stock = line ∧ IsTidy line := by
  intro line stock
  have hl : OneLine line := by unfold OneLine; decide
  have hstock : uncomment? line = some stock := by decide
  have hback : commentOut stock = line := by decide
  obtain ⟨hline, htidy⟩ := commentOut_inverse hl
  exact ⟨hl, hline, hstock, hback, (htidy stock hstock).mp hback⟩

end Regraft

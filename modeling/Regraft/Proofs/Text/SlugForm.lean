import Regraft.Proofs.Text.Slug
import Regraft.Proofs.Text.Whole
import Mathlib.Data.List.Chain
/-!
# The form of slugs

A slug can be told by its form (`IsSlug`): which characters it has, which of them are at its ends, and that no two of its
hyphens are neighbours. Hyphens in place of gaps, trimming and cutting each keep what the step before has brought about, and
none of them changes a text that has the form already.

* `isChain_hyphenate`, `hyphenate_eq_self`: hyphens in place of gaps;
* `IsSlug.wholeSlug_eq`: no step changes a text of the form;
* `isSlug_wholeSlug`, `isSlug_shortenSlug`: a slug has the form before it is cut and behind that;
* `slug?_settled`: every value has a slug, and the slugs are the texts that are slugs of themselves.
-/
namespace Regraft

/-- One of two neighbours is no hyphen. -/
def HyphensApart (c d : CodePoint) : Prop := c ≠ char '-' ∨ d ≠ char '-'

instance decidableHyphensApart : DecidableRel HyphensApart := fun c d =>
  inferInstanceAs (Decidable (c ≠ char '-' ∨ d ≠ char '-'))

/-- The form of a slug, with capital letters or without them. -/
structure IsSlug (small : Bool) (t : Text) : Prop where
  ne_nil : t ≠ []
  /-- The letters and digits of ASCII, underscores, points and hyphens. -/
  plain : ∀ c ∈ t, c.isAlphanum = true ∨ c = char '_' ∨ c = char '.' ∨ c = char '-'
  isSmall : small = true → ∀ c ∈ t, c.isIn Char.isUpper = false
  starts : ∀ c ∈ t.head?, c ≠ char '-' ∧ c ≠ char '.'
  ends : ∀ c ∈ t.getLast?, c ≠ char '-' ∧ c ≠ char '.'
  apart : t.IsChain HyphensApart

instance decidableIsSlug (small : Bool) (t : Text) : Decidable (IsSlug small t) :=
  decidable_of_iff (t ≠ [] ∧ (∀ c ∈ t, c.isAlphanum = true ∨ c = char '_' ∨ c = char '.' ∨ c = char '-') ∧
      (small = true → ∀ c ∈ t, c.isIn Char.isUpper = false) ∧ (∀ c ∈ t.head?, c ≠ char '-' ∧ c ≠ char '.') ∧
      (∀ c ∈ t.getLast?, c ≠ char '-' ∧ c ≠ char '.') ∧ t.IsChain HyphensApart)
    ⟨fun ⟨hne, hplain, hsmall, hstarts, hends, hapart⟩ => ⟨hne, hplain, hsmall, hstarts, hends, hapart⟩,
      fun ⟨hne, hplain, hsmall, hstarts, hends, hapart⟩ => ⟨hne, hplain, hsmall, hstarts, hends, hapart⟩⟩

/-! ## Hyphens for gaps -/

section
variable {keep : CodePoint → Bool} {t : Text}

/-- No two hyphens are neighbours after the gaps were filled. -/
theorem isChain_hyphenate (keep : CodePoint → Bool) (t : Text) : (hyphenate keep t).IsChain HyphensApart := by
  induction t with
  | nil => exact List.isChain_nil
  | cons c t ih =>
    cases hc : isGap keep c with
    | false =>
      rw [hyphenate_cons_of_kept hc]
      exact List.isChain_cons.mpr ⟨fun _ _ => .inl (ne_hyphen_of_kept hc), ih⟩
    | true =>
      rw [hyphenate_cons_of_gap hc]
      split
      · exact ih
      · rename_i hhead
        exact List.isChain_cons.mpr ⟨fun _ hd => .inr fun heq => hhead (heq ▸ hd), ih⟩

/-- A text of kept characters without neighbouring hyphens is left as it is. -/
theorem hyphenate_eq_self (hkeep : ∀ c ∈ t, keep c = true) (hapart : t.IsChain HyphensApart) : hyphenate keep t = t := by
  induction t with
  | nil => rfl
  | cons c t ih =>
    obtain ⟨hc, ht⟩ := List.forall_mem_cons.mp hkeep
    obtain ⟨hnext, hrest⟩ := List.isChain_cons.mp hapart
    cases hgap : isGap keep c with
    | false => rw [hyphenate_cons_of_kept hgap, ih ht hrest]
    | true =>
      have hhyphen : c = char '-' := by simpa [isGap, hc] using hgap
      have hhead : t.head? ≠ some (char '-') := fun h => (hnext _ h).elim (absurd hhyphen) (absurd rfl)
      rw [hyphenate_cons_of_gap hgap, ih ht hrest, if_neg hhead, hhyphen]

end

/-! ## Small letters -/

theorem toNat_lt_of_isSlugChar {small : Bool} {c : CodePoint} (h : isSlugChar small c = true) : c.toNat < 128 := by
  obtain ⟨halphanum | rfl | rfl | rfl, -⟩ := isSlugChar_iff.mp h
  · have hrange := toNat_of_isAlphanum halphanum
    omega
  all_goals decide

/-- A text of ASCII without capital letters is its own small form. -/
theorem lowerFrom_eq_self {t : Text} (h : ∀ c ∈ t, c.toNat < 128 ∧ c.isIn Char.isUpper = false) (before : Text) :
    lowerFrom before t = t := by
  induction t generalizing before with
  | nil => rfl
  | cons c t ih =>
    obtain ⟨⟨hascii, hupper⟩, ht⟩ := List.forall_mem_cons.mp h
    have hletter : smallLetter c = c := by
      rw [smallLetter, if_pos hascii]
      cases c with
      | half place => rfl
      | char c => exact congrArg char (dif_neg (of_decide_eq_false hupper))
    have hsigma : c ≠ char 'Σ' := by
      rintro rfl
      exact absurd hascii (by decide)
    have hdotted : c ≠ char 'İ' := by
      rintro rfl
      exact absurd hascii (by decide)
    rw [lowerFrom, ih ht]
    simp only [hsigma, hdotted, if_false, hletter, List.singleton_append]

/-! ## Texts of the form -/

namespace IsSlug

variable {small : Bool} {t : Text}

theorem isSlugChar (h : IsSlug small t) : ∀ c ∈ t, isSlugChar small c = true := fun c hc =>
  isSlugChar_iff.mpr ⟨h.plain c hc, fun hsmall => h.isSmall hsmall c hc⟩

theorem isWhole (h : IsSlug small t) : t.IsWhole := by
  intro c hc
  cases c with
  | char c => rfl
  | half place => cases h.isSlugChar _ hc

/-- No step on the way to a slug changes a text that has the form. -/
theorem wholeSlug_eq {style : SlugStyle} (h : IsSlug style.small t) : wholeSlug style t = t := by
  have hstrip : strip t = t :=
    trimWhile_eq_self (fun c hc => isBlank_of_isSlugChar (h.isSlugChar c (List.mem_of_mem_head? hc)))
      fun c hc => isBlank_of_isSlugChar (h.isSlugChar c (List.mem_of_getLast? hc))
  have hlower : (if style.small then lowerCase t else t) = t := by
    split
    · rename_i hsmall
      exact lowerFrom_eq_self (fun c hc => ⟨toNat_lt_of_isSlugChar (h.isSlugChar c hc), h.isSmall hsmall c hc⟩) []
    · rfl
  have hflat : trimWhile (fun c => c == char '-' || c == char '.') t = t :=
    trimWhile_eq_self (fun c hc => by simpa using h.starts c hc) fun c hc => by simpa using h.ends c hc
  have hempty : t.isEmpty = false := by simpa using h.ne_nil
  simp only [wholeSlug, hstrip, hempty, Bool.false_eq_true, if_false, hlower, hyphenate_eq_self h.isSlugChar h.apart, hflat]

end IsSlug

/-! ## Slugs have the form -/

section
variable {small : Bool} {t : Text}

theorem isSlug_of_isSlugChar (hne : t ≠ []) (hchars : ∀ c ∈ t, isSlugChar small c = true)
    (hstarts : ∀ c ∈ t.head?, c ≠ char '-' ∧ c ≠ char '.') (hends : ∀ c ∈ t.getLast?, c ≠ char '-' ∧ c ≠ char '.')
    (hapart : t.IsChain HyphensApart) : IsSlug small t where
  ne_nil := hne
  plain c hc := (isSlugChar_iff.mp (hchars c hc)).1
  isSmall hsmall c hc := (isSlugChar_iff.mp (hchars c hc)).2 hsmall
  starts := hstarts
  ends := hends
  apart := hapart

theorem isSlugChar_hyphen (small : Bool) : isSlugChar small (char '-') = true := by
  cases small <;> rfl

/-- What is left of hyphens and kept characters has the form, if points and hyphens are trimmed and anything is left. -/
theorem isSlug_trimWhile (hchars : ∀ c ∈ t, isSlugChar small c = true) (hapart : t.IsChain HyphensApart)
    (hne : trimWhile (fun c => c == char '-' || c == char '.') t ≠ []) :
    IsSlug small (trimWhile (fun c => c == char '-' || c == char '.') t) := by
  obtain ⟨front, rest, ht, -, -⟩ := exists_trimWhile_eq (fun c => c == char '-' || c == char '.') t
  rw [ht] at hapart
  exact isSlug_of_isSlugChar hne (fun c hc => hchars c ((trimWhile_sublist _ t).subset hc))
    (fun c hc => by simpa using head?_trimWhile t c hc) (fun c hc => by simpa using getLast?_trimWhile t c hc)
    hapart.left_of_append.right_of_append

/-- Before it is cut, a slug has the form if the fallback has it. -/
theorem isSlug_wholeSlug {style : SlugStyle} (h : IsSlug style.small style.fallback) (t : Text) :
    IsSlug style.small (wholeSlug style t) := by
  have hchars : ∀ source, ∀ c ∈ hyphenate (isSlugChar style.small) source, isSlugChar style.small c = true :=
    fun source c hc => (mem_hyphenate hc).elim id fun heq => heq ▸ isSlugChar_hyphen _
  simp only [wholeSlug]
  refine iteInduction (fun _ => h) fun hne => ?_
  exact isSlug_trimWhile (hchars _) (isChain_hyphenate _ _) (by simpa using hne)

/-! ## Slugs that are cut -/

/-- A cut slug begins as the whole one does. -/
theorem exists_keptOfSlug_eq (maxLength : Int) (t : Text) : ∃ rest, t = keptOfSlug maxLength t ++ rest := by
  obtain ⟨rest, hrest, -⟩ := exists_dropEndWhile_eq (· == '-') (t.take (max (maxLength - 9) 1).toNat)
  refine ⟨rest ++ t.drop (max (maxLength - 9) 1).toNat, ?_⟩
  rw [keptOfSlug, ← List.append_assoc, ← hrest, List.take_append_drop]

/-- Something is left in front of the digest: at least one character was kept, and the first one is no hyphen. -/
theorem keptOfSlug_ne_nil (h : IsSlug small t) (maxLength : Int) : keptOfSlug maxLength t ≠ [] := by
  obtain ⟨c, t, rfl⟩ := List.exists_cons_of_ne_nil h.ne_nil
  obtain ⟨n, hn⟩ : ∃ n, (max (maxLength - 9) 1).toNat = n + 1 := Nat.exists_eq_succ_of_ne_zero (by omega)
  obtain ⟨rest, hrest, hhyphens⟩ := exists_dropEndWhile_eq (· == '-') ((c :: t).take (max (maxLength - 9) 1).toNat)
  intro hnil
  rw [← keptOfSlug, hnil, List.nil_append, hn, List.take_succ_cons] at hrest
  have hhyphen := hhyphens c (hrest ▸ List.mem_cons_self)
  exact (h.starts c rfl).1 (by simpa using hhyphen)

theorem length_shortenSlug_le {maxLength : Int} (hmax : 10 ≤ maxLength) (t : Text) :
    ((shortenSlug maxLength t).length : Int) ≤ maxLength := by
  have hkept : (keptOfSlug maxLength t).length ≤ (max (maxLength - 9) 1).toNat :=
    (dropEndWhile_sublist _ _).length_le.trans (List.length_take_le _ _)
  rw [shortenSlug, ← keptOfSlug, List.length_append, List.length_cons, length_shortDigest]
  omega

/-- The digits of a digest may stand in a slug, and none of them is a hyphen or a point. -/
theorem digit_of_mem_shortDigest {c : CodePoint} (hc : c ∈ shortDigest t) (small : Bool) :
    isSlugChar small c = true ∧ c ≠ char '-' ∧ c ≠ char '.' := by
  have hdigits : ("0123456789abcdef".toList.all fun d =>
      isSlugChar small (char d) && char d != char '-' && char d != char '.') = true := by
    cases small <;> decide
  obtain ⟨d, hd, rfl⟩ := mem_hexBytes hc
  have hdigit := List.all_eq_true.mp hdigits d hd
  rwa [Bool.and_eq_true, Bool.and_eq_true, bne_iff_ne, bne_iff_ne, and_assoc] at hdigit

theorem isChain_of_not_mem (h : char '-' ∉ t) : t.IsChain HyphensApart := by
  induction t with
  | nil => exact List.isChain_nil
  | cons c t ih =>
    obtain ⟨hc, ht⟩ := not_or.mp (List.mem_cons.not.mp h)
    exact List.isChain_cons.mpr ⟨fun _ _ => .inl (Ne.symm hc), ih ht⟩

/-- A slug that is cut keeps the form. -/
theorem isSlug_shortenSlug (h : IsSlug small t) (maxLength : Int) : IsSlug small (shortenSlug maxLength t) := by
  obtain ⟨rest, hrest⟩ := exists_keptOfSlug_eq maxLength t
  have hne := keptOfSlug_ne_nil h maxLength
  have hplain : char '-' ∉ shortDigest t := fun hmem => (digit_of_mem_shortDigest hmem small).2.1 rfl
  rw [shortenSlug, ← keptOfSlug]
  refine isSlug_of_isSlugChar (by simp) (fun c hc => ?_) (fun c hc => ?_) (fun c hc => ?_) ?_
  · rcases List.mem_append.mp hc with hc | hc
    · exact h.isSlugChar c (hrest ▸ List.mem_append_left rest hc)
    · rcases List.mem_cons.mp hc with rfl | hc
      · exact isSlugChar_hyphen small
      · exact (digit_of_mem_shortDigest hc small).1
  · refine h.starts c ?_
    rw [hrest, List.head?_append_of_ne_nil _ hne]
    rwa [List.head?_append_of_ne_nil _ hne] at hc
  · have hdigest : shortDigest t ≠ [] := fun hnil => by simpa [hnil] using length_shortDigest t
    rw [List.getLast?_append_of_ne_nil _ (List.cons_ne_nil _ _), List.getLast?_cons_of_ne_nil hdigest] at hc
    exact (digit_of_mem_shortDigest (List.mem_of_getLast? hc) small).2
  · -- The hyphen in front of the digest has none next to it: the beginning was cut until another character ends it.
    have hkept : (keptOfSlug maxLength t).IsChain HyphensApart := List.IsChain.left_of_append (hrest ▸ h.apart)
    have hlast : ∀ c ∈ (keptOfSlug maxLength t).getLast?, c ≠ char '-' := fun c hc => by
      simpa using getLast?_dropEndWhile _ c hc
    refine List.isChain_append.mpr ⟨hkept, List.isChain_cons.mpr ⟨fun d hd => ?_, isChain_of_not_mem hplain⟩,
      fun c hc _ _ => .inl (hlast c hc)⟩
    exact .inr fun heq => hplain (heq ▸ List.mem_of_mem_head? hd)

end

/-! ## Slugs of slugs -/

section
variable {style : SlugStyle} {t : Text}

/-- A text of the form that is not too long is a slug of itself, whatever the fallback is. -/
theorem slug?_eq_self (h : IsSlug style.small t) (hlength : (t.length : Int) ≤ style.maxLength) :
    slug? style t = some t := by
  have hwhole := h.wholeSlug_eq
  simp only [slug?, slug, hwhole, hlength, true_or, if_true]

/-- The slug of a text is defined and has the form, and it is not too long. -/
theorem exists_slug? (hmax : 10 ≤ style.maxLength) (hfallback : IsSlug style.small style.fallback) (t : Text) :
    ∃ s, slug? style t = some s ∧ IsSlug style.small s ∧ (s.length : Int) ≤ style.maxLength := by
  have hwhole := isSlug_wholeSlug hfallback t
  obtain ⟨cs, hcs⟩ := hwhole.isWhole.exists_chars
  refine ⟨slug style t, if_pos (.inr (by rw [hcs]; rfl)), ?_⟩
  by_cases hlong : style.IsLong t
  · rw [SlugStyle.slug_of_isLong hlong]
    exact ⟨isSlug_shortenSlug hwhole _, length_shortenSlug_le hmax _⟩
  · rw [SlugStyle.slug_of_not_isLong hlong]
    exact ⟨hwhole, Int.not_lt.mp hlong⟩

/-- Every value, one that is missing among them, has a slug. It has the form of slugs and is not too long, and it is a slug
of itself; and no other texts are slugs of themselves. The limit leaves room for a character in front of the digest. -/
theorem slug?_settled (hmax : 10 ≤ style.maxLength) (hfallback : IsSlug style.small style.fallback) :
    (∀ value : Option Text, ∃ s, slug? style (value.getD []) = some s ∧ IsSlug style.small s ∧
        (s.length : Int) ≤ style.maxLength ∧ slug? style s = some s) ∧
      ∀ t, slug? style t = some t ↔ IsSlug style.small t ∧ (t.length : Int) ≤ style.maxLength := by
  refine ⟨fun value => ?_, fun t => ⟨fun hself => ?_, fun ⟨h, hlength⟩ => slug?_eq_self h hlength⟩⟩
  · obtain ⟨s, hs, h, hlength⟩ := exists_slug? hmax hfallback (value.getD [])
    exact ⟨s, hs, h, hlength, slug?_eq_self h hlength⟩
  · obtain ⟨s, hs, h, hlength⟩ := exists_slug? hmax hfallback t
    obtain rfl : t = s := Option.some.inj (hself.symm.trans hs)
    exact ⟨h, hlength⟩

/-- A slug that is cut right behind a hyphen, and the slug of no value. -/
theorem slug?_settled_narrow :
    ((10 : Int) ≤ SlugStyle.maxLength { maxLength := 11 } ∧ IsSlug true "file") ∧
      (slug? { maxLength := 11 } "-.Ä/B--c/DEFGH.cpp" = some "b-fac550e3" ∧ IsSlug true "b-fac550e3" ∧
        slug? { maxLength := 11 } "b-fac550e3" = some "b-fac550e3") ∧
      ∃ s, slug? { maxLength := 11 } [] = some s ∧ IsSlug true s ∧ slug? { maxLength := 11 } s = some s := by
  have hfallback : IsSlug true "file" := by decide
  obtain ⟨hslugs, -⟩ := @slug?_settled { maxLength := 11 } (by decide) hfallback
  have hcut : slug? { maxLength := 11 } "-.Ä/B--c/DEFGH.cpp" = some "b-fac550e3" := by decide +kernel
  obtain ⟨s, hs, h, -, hself⟩ := hslugs (some "-.Ä/B--c/DEFGH.cpp")
  obtain rfl := Option.some.inj (hcut.symm.trans hs)
  obtain ⟨s', hs', h', -, hself'⟩ := hslugs none
  exact ⟨⟨by decide, hfallback⟩, ⟨hcut, h, hself⟩, s', hs', h', hself'⟩

/-- A fallback that ends in a hyphen is the slug of a text of gaps, and no slug of itself. -/
example : slug? { fallback := "a-" } " /" = some "a-" ∧ slug? { fallback := "a-" } "a-" = some "a" := by decide

end

end Regraft

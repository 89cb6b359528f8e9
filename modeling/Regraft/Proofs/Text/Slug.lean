import Regraft.Proofs.Files.Path
import Regraft.Proofs.Text.Scan
import Regraft.Text.Slug
import Mathlib.Data.List.Induction
/-!
# Slugs by their words

A slug keeps the words of a text and puts hyphens between them; where one word ends and how much stands between two of them
is lost. So two texts have the same slug if they have the same words (`SlugStyle.wholeSlug_eq_iff`), or if one of the slugs is
too long and was cut (`SlugStyle.slug_eq_iff`).

* `hyphenate_trimmed`: a text that is trimmed is its words with hyphens between them;
* `SlugStyle.slug_eq_iff`: the texts that have the same slug.
-/
namespace Regraft

/-- A character that a slug has a hyphen for. -/
def isGap (keep : CodePoint → Bool) (c : CodePoint) : Bool := !(keep c && c != char '-')

section
variable {keep : CodePoint → Bool} {t : Text} {c : CodePoint}

/-! ## Hyphens for gaps -/

theorem hyphenate_cons_of_kept (h : isGap keep c = false) : hyphenate keep (c :: t) = c :: hyphenate keep t := by
  rw [isGap, Bool.not_eq_false'] at h
  simp only [hyphenate, h, if_true]

theorem hyphenate_cons_of_gap (h : isGap keep c = true) : hyphenate keep (c :: t) =
    if (hyphenate keep t).head? = some (char '-') then hyphenate keep t else char '-' :: hyphenate keep t := by
  rw [isGap, Bool.not_eq_true'] at h
  simp only [hyphenate, h, Bool.false_eq_true, if_false]
  cases hyphenate keep t with
  | nil => rfl
  | cons d rest =>
    by_cases hd : d = char '-'
    · simp [hd]
    · rw [if_neg (by simpa using hd)]
      split
      · rename_i heq
        cases heq
        exact absurd rfl hd
      · rfl

theorem ne_hyphen_of_kept (h : isGap keep c = false) : c ≠ char '-' := by
  rw [isGap, Bool.not_eq_false', Bool.and_eq_true] at h
  simpa using h.2

theorem hyphenate_concat_of_kept (h : isGap keep c = false) :
    hyphenate keep (t ++ [c]) = hyphenate keep t ++ [c] := by
  induction t with
  | nil => exact hyphenate_cons_of_kept h
  | cons d t ih =>
    rw [List.cons_append]
    cases hd : isGap keep d with
    | false => rw [hyphenate_cons_of_kept hd, hyphenate_cons_of_kept hd, ih, List.cons_append]
    | true =>
      rw [hyphenate_cons_of_gap hd, hyphenate_cons_of_gap hd, ih]
      cases hyphenate keep t with
      | nil => simp [ne_hyphen_of_kept h]
      | cons e rest => by_cases he : e = char '-' <;> simp [he]

theorem hyphenate_concat_of_gap (h : isGap keep c = true) : hyphenate keep (t ++ [c]) =
    if (hyphenate keep t).getLast? = some (char '-') then hyphenate keep t else hyphenate keep t ++ [char '-'] := by
  induction t with
  | nil =>
    rw [List.nil_append, hyphenate_cons_of_gap h]
    rfl
  | cons d t ih =>
    rw [List.cons_append]
    cases hd : isGap keep d with
    | false =>
      rw [hyphenate_cons_of_kept hd, hyphenate_cons_of_kept hd, ih]
      cases hyphenate keep t with
      | nil => simp [ne_hyphen_of_kept hd]
      | cons e rest => split <;> simp_all
    | true =>
      rw [hyphenate_cons_of_gap hd, hyphenate_cons_of_gap hd, ih]
      cases hyphenate keep t with
      | nil => simp
      | cons e rest => by_cases he : e = char '-' <;> by_cases hl : (e :: rest).getLast? = some (char '-') <;> simp_all

theorem mem_hyphenate {keep : CodePoint → Bool} {t : Text} {c : CodePoint} (h : c ∈ hyphenate keep t) :
    keep c = true ∨ c = char '-' := by
  fun_induction hyphenate keep t with
  | case1 => cases h
  | case2 d t rest hkeep ih =>
    rcases List.mem_cons.mp h with rfl | h
    · exact .inl (Bool.and_eq_true_iff.mp hkeep).1
    · exact ih h
  | case3 d t rest hkeep tail hrest ih => exact ih h
  | case4 d t rest hkeep hrest ih =>
    rcases List.mem_cons.mp h with rfl | h
    · exact .inr rfl
    · exact ih h

/-! ## Runs -/

section
variable {p : CodePoint → Bool} {c d : CodePoint} {t w : Text}

theorem runsOutside_cons_of_pos (h : p c = true) : runsOutside p (c :: t) = runsOutside p t :=
  if_pos h

theorem runsOutside_singleton (hc : p c = false) : runsOutside p [c] = [[c]] := if_neg (by simp [hc])

theorem runsOutside_cons_cons (hc : p c = false) : runsOutside p (c :: d :: t) =
    match runsOutside p (d :: t) with
    | [] => [[c]]
    | w :: ws => if p d then [c] :: w :: ws else (c :: w) :: ws := by
  refine (if_neg (by simp [hc])).trans ?_
  cases runsOutside p (d :: t) <;> rfl

/-- A run ends in front of a character of the class. -/
theorem runsOutside_cons_cons_of_pos (hc : p c = false) (hd : p d = true) :
    runsOutside p (c :: d :: t) = [c] :: runsOutside p (d :: t) := by
  rw [runsOutside_cons_cons hc]
  cases runsOutside p (d :: t) with
  | nil => rfl
  | cons w ws => exact if_pos hd

theorem runsOutside_ne_nil (hmem : c ∈ t) (hc : p c = false) : runsOutside p t ≠ [] := by
  induction t with
  | nil => cases hmem
  | cons d t ih =>
    cases hd : p d with
    | true =>
      rw [runsOutside_cons_of_pos hd]
      exact ih ((List.mem_cons.mp hmem).resolve_left fun heq => by simp [heq, hd] at hc)
    | false =>
      cases t with
      | nil =>
        rw [runsOutside_singleton hd]
        exact List.cons_ne_nil _ _
      | cons e t =>
        rw [runsOutside_cons_cons hd]
        split
        · exact List.cons_ne_nil _ _
        · split <;> exact List.cons_ne_nil _ _

/-- Another character makes a run longer. -/
theorem exists_runsOutside_cons (hc : p c = false) (hd : p d = false) :
    ∃ w ws, runsOutside p (d :: t) = w :: ws ∧ runsOutside p (c :: d :: t) = (c :: w) :: ws := by
  obtain ⟨w, ws, hruns⟩ := List.exists_cons_of_ne_nil (runsOutside_ne_nil (t := d :: t) List.mem_cons_self hd)
  refine ⟨w, ws, hruns, ?_⟩
  rw [runsOutside_cons_cons hc, hruns]
  exact if_neg (by simp [hd])

/-- A character of the class is between the runs before it and those behind it. -/
theorem runsOutside_append (hc : p c = true) (x y : Text) :
    runsOutside p (x ++ c :: y) = runsOutside p x ++ runsOutside p y := by
  induction x with
  | nil => exact runsOutside_cons_of_pos hc
  | cons d x ih =>
    cases hd : p d with
    | true =>
      rw [List.cons_append, runsOutside_cons_of_pos hd, runsOutside_cons_of_pos hd]
      exact ih
    | false =>
      cases x with
      | nil =>
        rw [List.cons_append, List.nil_append, runsOutside_cons_cons_of_pos hd hc, runsOutside_cons_of_pos hc]
        rw [runsOutside_singleton hd, List.singleton_append]
      | cons e x =>
        simp only [List.cons_append] at ih ⊢
        cases he : p e with
        | true => rw [runsOutside_cons_cons_of_pos hd he, runsOutside_cons_cons_of_pos hd he, ih, List.cons_append]
        | false =>
          obtain ⟨w, ws, hruns, hlonger⟩ := exists_runsOutside_cons (t := x) hd he
          obtain ⟨w', ws', hruns', hlonger'⟩ := exists_runsOutside_cons (t := x ++ c :: y) hd he
          rw [hruns', hruns, List.cons_append] at ih
          rw [hlonger, hlonger', List.cons_append]
          obtain ⟨rfl, rfl⟩ := List.cons_eq_cons.mp ih
          rfl

theorem mem_runsOutside : ∀ {t : Text}, ∀ w ∈ runsOutside p t, w ≠ [] ∧ ∀ c ∈ w, p c = false
  | [], _, h => by cases h
  | [c], w, h => by
    cases hc : p c with
    | true =>
      rw [runsOutside_cons_of_pos hc] at h
      cases h
    | false =>
      rw [runsOutside_singleton hc] at h
      obtain rfl := List.mem_singleton.mp h
      exact ⟨List.cons_ne_nil _ _, by simpa using hc⟩
  | c :: d :: t, w, h => by
    cases hc : p c with
    | true => exact mem_runsOutside w (runsOutside_cons_of_pos hc ▸ h)
    | false =>
      cases hd : p d with
      | true =>
        rw [runsOutside_cons_cons_of_pos hc hd] at h
        rcases List.mem_cons.mp h with rfl | h
        · exact ⟨List.cons_ne_nil _ _, by simpa using hc⟩
        · exact mem_runsOutside w h
      | false =>
        obtain ⟨v, ws, hruns, hlonger⟩ := exists_runsOutside_cons (t := t) hc hd
        rw [hlonger] at h
        rcases List.mem_cons.mp h with rfl | h
        · obtain ⟨-, hv⟩ := mem_runsOutside v (hruns ▸ List.mem_cons_self)
          exact ⟨List.cons_ne_nil _ _, List.forall_mem_cons.mpr ⟨hc, hv⟩⟩
        · exact mem_runsOutside w (hruns ▸ List.mem_cons_of_mem _ h)

theorem runsOutside_eq_singleton (hne : w ≠ []) (h : ∀ c ∈ w, p c = false) : runsOutside p w = [w] := by
  induction w with
  | nil => exact absurd rfl hne
  | cons c w ih =>
    obtain ⟨hc, hw⟩ := List.forall_mem_cons.mp h
    cases w with
    | nil => exact runsOutside_singleton hc
    | cons d w =>
      obtain ⟨v, ws, hruns, hlonger⟩ := exists_runsOutside_cons (t := w) hc (hw d List.mem_cons_self)
      rw [ih (List.cons_ne_nil _ _) hw] at hruns
      obtain ⟨rfl, rfl⟩ := List.cons_eq_cons.mp hruns
      exact hlonger

/-- Runs come back when characters of the class were put between them. -/
theorem runsOutside_joinWith {sep : CodePoint} (hsep : p sep = true) :
    ∀ {ws : List Text}, (∀ w ∈ ws, w ≠ [] ∧ ∀ c ∈ w, p c = false) → runsOutside p (joinWith [sep] ws) = ws
  | [], _ => rfl
  | [w], h => by
    obtain ⟨hne, hw⟩ := h w List.mem_cons_self
    exact runsOutside_eq_singleton hne hw
  | w :: v :: ws, h => by
    obtain ⟨hw, hws⟩ := List.forall_mem_cons.mp h
    have hjoin : joinWith [sep] (w :: v :: ws) = w ++ sep :: joinWith [sep] (v :: ws) := by
      rw [joinWith_cons_cons, List.append_assoc, List.singleton_append]
    rw [hjoin, runsOutside_append hsep, runsOutside_eq_singleton hw.1 hw.2, runsOutside_joinWith hsep hws]
    rfl

end

/-! ## Trimmed texts -/

/-- A text that ends in a word has its words with hyphens between them, and perhaps one in front. -/
theorem hyphenate_of_last (hlast : ∀ c ∈ t.getLast?, isGap keep c = false) : hyphenate keep t =
    if t.head?.any (isGap keep) then char '-' :: joinWith [char '-'] (runsOutside (isGap keep) t)
    else joinWith [char '-'] (runsOutside (isGap keep) t) := by
  induction t with
  | nil => rfl
  | cons c t ih =>
    cases t with
    | nil =>
      have hc : isGap keep c = false := hlast c rfl
      rw [hyphenate_cons_of_kept hc]
      rw [runsOutside_singleton hc, List.head?_cons, Option.any_some, hc, if_neg Bool.false_ne_true]
      rfl
    | cons d t =>
      replace ih := ih hlast
      obtain ⟨last, hlastmem⟩ := Option.isSome_iff_exists.mp (List.getLast?_isSome.mpr (List.cons_ne_nil d t))
      have hruns : runsOutside (isGap keep) (d :: t) ≠ [] :=
        runsOutside_ne_nil (List.mem_of_getLast? hlastmem) (hlast last hlastmem)
      obtain ⟨w, ws, hws⟩ := List.exists_cons_of_ne_nil hruns
      rw [List.head?_cons, Option.any_some] at ih ⊢
      cases hc : isGap keep c with
      | true =>
        rw [if_pos rfl, hyphenate_cons_of_gap hc, runsOutside_cons_of_pos hc]
        cases hd : isGap keep d with
        | true => simp [ih, hd]
        | false =>
          have hhead : (hyphenate keep (d :: t)).head? ≠ some (char '-') := by
            rw [hyphenate_cons_of_kept hd]
            simpa using ne_hyphen_of_kept hd
          rw [if_neg hhead, ih, hd]
          rfl
      | false =>
        rw [hyphenate_cons_of_kept hc, ih, if_neg Bool.false_ne_true]
        cases hd : isGap keep d with
        | true =>
          rw [runsOutside_cons_cons_of_pos hc hd, hws]
          rfl
        | false =>
          obtain ⟨v, vs, hvs, hlonger⟩ := exists_runsOutside_cons (t := t) hc hd
          rw [hlonger, hvs]
          cases vs <;> rfl

/-- The characters that are trimmed off a slug, and off the text that it is made from. -/
theorem dropWhile_hyphenate (t : Text) : (hyphenate keep t).dropWhile (fun c => c == char '-' || c == char '.') =
    hyphenate keep (t.dropWhile fun c => isGap keep c || c == char '.') := by
  induction t with
  | nil => rfl
  | cons c t ih =>
    cases hc : isGap keep c with
    | true =>
      rw [List.dropWhile_cons_of_pos (by simp [hc]), ← ih, hyphenate_cons_of_gap hc]
      split
      · rfl
      · exact List.dropWhile_cons_of_pos rfl
    | false =>
      rw [hyphenate_cons_of_kept hc]
      by_cases hpoint : c = char '.'
      · rw [List.dropWhile_cons_of_pos (by simp [hpoint]), List.dropWhile_cons_of_pos (by simp [hpoint]), ih]
      · rw [List.dropWhile_cons_of_neg (by simp [hpoint, ne_hyphen_of_kept hc]),
          List.dropWhile_cons_of_neg (by simp [hpoint, hc]), hyphenate_cons_of_kept hc]

theorem dropEndWhile_hyphenate (t : Text) : dropEndWhile (fun c => c == char '-' || c == char '.') (hyphenate keep t) =
    hyphenate keep (dropEndWhile (fun c => isGap keep c || c == char '.') t) := by
  induction t using List.reverseRecOn with
  | nil => rfl
  | append_singleton t c ih =>
    cases hc : isGap keep c with
    | true =>
      rw [dropEndWhile_concat_of_pos (by simp [hc]) _, ← ih, hyphenate_concat_of_gap hc]
      split
      · rfl
      · exact dropEndWhile_concat_of_pos rfl _
    | false =>
      rw [hyphenate_concat_of_kept hc]
      by_cases hpoint : c = char '.'
      · rw [dropEndWhile_concat_of_pos (by simp [hpoint]) _, dropEndWhile_concat_of_pos (by simp [hpoint]) _, ih]
      · rw [dropEndWhile_concat_of_neg (by simp [hpoint, ne_hyphen_of_kept hc]) _,
          dropEndWhile_concat_of_neg (by simp [hpoint, hc]) _, hyphenate_concat_of_kept hc]

/-- The words of a text without points and gaps at its ends. -/
def slugWords (keep : CodePoint → Bool) (t : Text) : List Text :=
  runsOutside (isGap keep) (trimWhile (fun c => isGap keep c || c == char '.') t)

/-- A text that is trimmed is its words with hyphens between them. -/
theorem trimWhile_hyphenate (t : Text) : trimWhile (fun c => c == char '-' || c == char '.') (hyphenate keep t) =
    joinWith [char '-'] (slugWords keep t) := by
  have hlast : ∀ c ∈ (trimWhile (fun c => isGap keep c || c == char '.') t).getLast?, isGap keep c = false := fun c hc =>
    (Bool.or_eq_false_iff.mp (getLast?_trimWhile t c hc)).1
  have hhead : (trimWhile (fun c => isGap keep c || c == char '.') t).head?.any (isGap keep) = false := by
    cases hhead : (trimWhile (fun c => isGap keep c || c == char '.') t).head? with
    | none => rfl
    | some c => exact (Bool.or_eq_false_iff.mp (head?_trimWhile t c hhead)).1
  rw [trimWhile, dropWhile_hyphenate, dropEndWhile_hyphenate, ← trimWhile, hyphenate_of_last hlast, hhead,
    if_neg Bool.false_ne_true, slugWords]

end

/-! ## Characters of slugs -/

/-- A capital letter is in none of the other classes of a slug's characters. -/
theorem not_plain_of_isUpper {c : Char} (h : c.isUpper = true) :
    c.isLower = false ∧ c.isDigit = false ∧ c ≠ '_' ∧ c ≠ '.' ∧ c ≠ '-' := by
  have hrange := isUpper_iff_toNat.mp h
  refine ⟨Bool.eq_false_iff.mpr fun hlower => ?_, Bool.eq_false_iff.mpr fun hdigit => ?_, ?_, ?_, ?_⟩
  · have hlower := isLower_iff_toNat.mp hlower
    omega
  · have hdigit : c.toNat ≤ 57 := (Char.isDigit_iff_toNat.mp hdigit).2
    omega
  all_goals
    rintro rfl
    exact absurd h (by decide)

/-- The characters of a slug: letters and digits of ASCII and three others, capital letters among them if they are kept. -/
theorem isSlugChar_iff {small : Bool} {c : CodePoint} : isSlugChar small c = true ↔
    (c.isAlphanum = true ∨ c = char '_' ∨ c = char '.' ∨ c = char '-') ∧
      (small = true → c.isIn Char.isUpper = false) := by
  cases c with
  | half place => simp [isSlugChar, CodePoint.isAlphanum, CodePoint.isIn]
  | char c =>
    have halphanum : c.isAlphanum = (c.isUpper || c.isLower || c.isDigit) := rfl
    simp only [isSlugChar, CodePoint.isAlphanum, CodePoint.isIn, halphanum, Bool.or_eq_true, Bool.and_eq_true, beq_iff_eq,
      CodePoint.char.injEq]
    cases hupper : c.isUpper with
    | false => simp [or_assoc]
    | true =>
      obtain ⟨hlower, hdigit, hline, hpoint, hhyphen⟩ := not_plain_of_isUpper hupper
      simp [hlower, hdigit, hline, hpoint, hhyphen]

/-- No character of a slug is a blank. -/
theorem isBlank_of_isSlugChar {small : Bool} {c : CodePoint} (h : isSlugChar small c = true) : isBlank c = false := by
  obtain ⟨halphanum | rfl | rfl | rfl, -⟩ := isSlugChar_iff.mp h
  · exact isBlank_of_isWordChar (by simp [isWordChar, halphanum])
  all_goals decide

/-! ## Slugs -/

theorem isEmpty_joinWith {sep : Text} {ws : List Text} (h : ∀ w ∈ ws, w ≠ []) :
    (joinWith sep ws).isEmpty = ws.isEmpty := by
  cases ws with
  | nil => rfl
  | cons w ws =>
    have hw := h w List.mem_cons_self
    cases ws <;> simp [joinWith, hw]

theorem length_shortDigest (t : Text) : (shortDigest t).length = 8 := by
  have hdigest : (Sha256.digest t.bytes).length = 32 := by simp [Sha256.digest, Sha256.bigEndian]
  have hhex : ∀ bytes : List UInt8, (hexBytes bytes).length = 2 * bytes.length := fun bytes => by
    simp [hexBytes, List.length_flatMap, List.map_const', Nat.mul_comm]
  rw [shortDigest, hhex, List.length_take, hdigest]
  rfl

theorem mem_hexBytes {bytes : List UInt8} {c : CodePoint} (h : c ∈ hexBytes bytes) :
    ∃ d ∈ "0123456789abcdef".toList, c = char d := by
  have hdigit : ∀ n : Nat, ("0123456789abcdef".toList[n]?).getD '0' ∈ "0123456789abcdef".toList := by
    intro n
    cases hn : "0123456789abcdef".toList[n]? with
    | none => decide
    | some d => exact List.mem_of_getElem? hn
  obtain ⟨b, -, hc⟩ := List.mem_flatMap.mp h
  simp only [List.mem_cons, List.not_mem_nil, or_false] at hc
  rcases hc with rfl | rfl <;> exact ⟨_, hdigit _, rfl⟩

/-- The beginning that is left of a slug that is cut. -/
def keptOfSlug (maxLength : Int) (slug : Text) : Text :=
  dropEndWhile (· == '-') (slug.take (max (maxLength - 9) 1).toNat)

/-- Two slugs that are cut are the same if their beginnings and their digests are. -/
theorem shortenSlug_eq_iff {maxLength : Int} {a b : Text} : shortenSlug maxLength a = shortenSlug maxLength b ↔
    keptOfSlug maxLength a = keptOfSlug maxLength b ∧ shortDigest a = shortDigest b := by
  constructor
  · intro h
    obtain ⟨hkept, hdigest⟩ := List.append_inj' h (by simp [length_shortDigest])
    exact ⟨hkept, (List.cons_eq_cons.mp hdigest).2⟩
  · rintro ⟨hkept, hdigest⟩
    rw [shortenSlug, shortenSlug, ← keptOfSlug, ← keptOfSlug, hkept, hdigest]

namespace SlugStyle

variable {style : SlugStyle} {t u : Text}

/-- The words of a text that a slug keeps. -/
def kept (style : SlugStyle) (t : Text) : List Text :=
  slugWords (isSlugChar style.small) (if style.small then lowerCase (strip t) else strip t)

/-- The words of a slug: those of the text, or the fallback if there is none. -/
def words (style : SlugStyle) (t : Text) : List Text := if style.kept t = [] then [style.fallback] else style.kept t

/-- The fallback is a word, and it is the slug of a text without any. -/
structure FallsBack (style : SlugStyle) : Prop where
  noHyphen : char '-' ∉ style.fallback
  whole : wholeSlug style [] = style.fallback

/-- A slug is cut. -/
def IsLong (style : SlugStyle) (t : Text) : Prop := style.maxLength < (wholeSlug style t).length

theorem kept_eq_nil (h : strip t = []) : style.kept t = [] := by
  have hlower : lowerCase ([] : Text) = [] := rfl
  rw [kept, h, hlower, ite_self]
  rfl

/-- Before it is cut, a slug is the words with hyphens between them. -/
theorem wholeSlug_eq (h : style.FallsBack) (t : Text) : wholeSlug style t = joinWith [char '-'] (style.words t) := by
  by_cases hempty : strip t = []
  · have hnil : wholeSlug style t = wholeSlug style [] := by
      simp only [wholeSlug, hempty, show strip ([] : Text) = [] from rfl]
    rw [hnil, h.whole, words, if_pos (kept_eq_nil hempty)]
    rfl
  · have hflat : wholeSlug style t =
        if (joinWith [char '-'] (style.kept t)).isEmpty then style.fallback else joinWith [char '-'] (style.kept t) := by
      have hsome : (strip t).isEmpty = false := by simpa using hempty
      simp only [wholeSlug, hsome, Bool.false_eq_true, if_false, trimWhile_hyphenate]
      rfl
    have hwords : ∀ w ∈ style.kept t, w ≠ [] := fun w hw => (mem_runsOutside w hw).1
    rw [hflat, isEmpty_joinWith hwords, words]
    by_cases hkept : style.kept t = []
    · rw [hkept]
      rfl
    · rw [if_neg (by simpa using hkept), if_neg hkept]

theorem words_ne_nil (style : SlugStyle) (t : Text) : style.words t ≠ [] := by
  unfold words
  split
  · exact List.cons_ne_nil _ _
  · assumption

theorem not_mem_words (h : style.FallsBack) : ∀ w ∈ style.words t, char '-' ∉ w := by
  intro w hw
  unfold words at hw
  split at hw
  · exact List.mem_singleton.mp hw ▸ h.noHyphen
  · exact fun hmem => ne_hyphen_of_kept ((mem_runsOutside w hw).2 _ hmem) rfl

/-- Slugs that are not cut are the same if their words are. -/
theorem wholeSlug_eq_iff (h : style.FallsBack) : wholeSlug style t = wholeSlug style u ↔ style.words t = style.words u := by
  rw [wholeSlug_eq h, wholeSlug_eq h]
  refine ⟨fun heq => ?_, fun heq => by rw [heq]⟩
  rw [← fields_joinWith_sep (style.words_ne_nil t) (not_mem_words h), heq,
    fields_joinWith_sep (style.words_ne_nil u) (not_mem_words h)]

/-- One of two slugs is cut, and still they are the same: both have the same beginning and the same digest, or one of them
is a slug as it is. -/
inductive Clash (style : SlugStyle) (t u : Text) : Prop
  | cut (left : style.IsLong t) (right : style.IsLong u)
      (kept : keptOfSlug style.maxLength (wholeSlug style t) = keptOfSlug style.maxLength (wholeSlug style u))
      (digest : shortDigest (wholeSlug style t) = shortDigest (wholeSlug style u))
  | cutLeft (left : style.IsLong t) (right : ¬ style.IsLong u)
      (same : shortenSlug style.maxLength (wholeSlug style t) = wholeSlug style u)
  | cutRight (left : ¬ style.IsLong t) (right : style.IsLong u)
      (same : wholeSlug style t = shortenSlug style.maxLength (wholeSlug style u))

theorem slug_of_isLong (h : style.IsLong t) : slug style t = shortenSlug style.maxLength (wholeSlug style t) :=
  if_neg (Int.not_le.mpr h)

theorem slug_of_not_isLong (h : ¬ style.IsLong t) : slug style t = wholeSlug style t := if_pos (Int.not_lt.mp h)

/-- The texts that have the same slug. -/
theorem slug_eq_iff (h : style.FallsBack) :
    slug style t = slug style u ↔ style.words t = style.words u ∨ style.Clash t u := by
  constructor
  · intro heq
    by_cases ht : style.IsLong t <;> by_cases hu : style.IsLong u
    · rw [slug_of_isLong ht, slug_of_isLong hu, shortenSlug_eq_iff] at heq
      exact .inr (.cut ht hu heq.1 heq.2)
    · rw [slug_of_isLong ht, slug_of_not_isLong hu] at heq
      exact .inr (.cutLeft ht hu heq)
    · rw [slug_of_not_isLong ht, slug_of_isLong hu] at heq
      exact .inr (.cutRight ht hu heq)
    · rw [slug_of_not_isLong ht, slug_of_not_isLong hu] at heq
      exact .inl ((wholeSlug_eq_iff h).mp heq)
  · rintro (hwords | hclash)
    · simp only [slug, (wholeSlug_eq_iff h).mpr hwords]
    · cases hclash with
      | cut ht hu hkept hdigest =>
        rw [slug_of_isLong ht, slug_of_isLong hu]
        exact shortenSlug_eq_iff.mpr ⟨hkept, hdigest⟩
      | cutLeft ht hu hsame => rw [slug_of_isLong ht, slug_of_not_isLong hu, hsame]
      | cutRight ht hu hsame => rw [slug_of_not_isLong ht, slug_of_isLong hu, hsame]

/-- Words of kept characters with gaps between them are the words of the slug. -/
theorem words_joinWith (hsmall : style.small = false) {sep : CodePoint} {ws : List Text}
    (hsep : isGap (isSlugChar false) sep = true) (hne : ws ≠ [])
    (hws : ∀ w ∈ ws, w ≠ [] ∧ ∀ c ∈ w, isGap (isSlugChar false) c = false)
    (hends : ∀ c, c ∈ (joinWith [sep] ws).head? ∨ c ∈ (joinWith [sep] ws).getLast? →
      isGap (isSlugChar false) c = false ∧ c ≠ '.') : style.words (joinWith [sep] ws) = ws := by
  have hblank : ∀ c, isGap (isSlugChar false) c = false → isBlank c = false := by
    intro c hc
    rw [isGap, Bool.not_eq_false', Bool.and_eq_true] at hc
    exact isBlank_of_isSlugChar hc.1
  have hstrip : strip (joinWith [sep] ws) = joinWith [sep] ws :=
    trimWhile_eq_self (fun c hc => hblank c (hends c (.inl hc)).1) fun c hc => hblank c (hends c (.inr hc)).1
  have htrim : trimWhile (fun c => isGap (isSlugChar false) c || c == char '.') (joinWith [sep] ws) = joinWith [sep] ws :=
    trimWhile_eq_self (fun c hc => by simpa using hends c (.inl hc)) fun c hc => by simpa using hends c (.inr hc)
  have hkept : style.kept (joinWith [sep] ws) = ws := by
    simp only [kept, hsmall, Bool.false_eq_true, if_false, hstrip, slugWords, htrim, runsOutside_joinWith hsep hws]
  rw [words, hkept, if_neg hne]

end SlugStyle

end Regraft

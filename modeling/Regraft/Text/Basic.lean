import Regraft.Text.CodePoint
/-!
# Texts

A text is a list of code points, so that scanners and printers are recursion on lists and their laws
need nothing but list lemmas. This module holds the character classes and the small scanners the
rest of the library shares:

* `isBlank`, `strip`, `words`: the blanks of Unicode and what they separate;
* `after?`, `before?`: a text that starts, or ends, with another one (`after?_eq_some_iff`);
* `noLater`: the order of texts;
* `cut?`, `fields`, `splitLines`: splitting at a character and at line boundaries;
* `untilBreak?`: the part of a line that a line end may follow.
-/
namespace Regraft

/-- A text is the sequence of its code points. -/
abbrev Text := List CodePoint

namespace Text

/-- The text of some characters. -/
def ofChars (cs : List Char) : Text := cs.map CodePoint.char

/-- The text of a string. -/
def ofString (s : String) : Text := ofChars s.toList

/-- The characters of a text; none if it holds a half of a surrogate pair. -/
def chars? (t : Text) : Option (List Char) := t.mapM CodePoint.char?

@[simp] theorem chars?_ofChars (cs : List Char) : (ofChars cs).chars? = some cs := by
  induction cs with
  | nil => rfl
  | cons c cs ih =>
    simp only [chars?, ofChars] at ih
    simp [chars?, ofChars, CodePoint.char?, ih]

end Text

instance coeString : Coe String Text := ⟨Text.ofString⟩

/-- Whether a text is one of some texts is decided by comparing it with each. -/
instance decidableMemTexts (t : Text) (ts : List Text) : Decidable (t ∈ ts) :=
  decidable_of_iff (ts.contains t = true) List.contains_iff_mem

/-- The characters that separate words: the blanks of Unicode and the four ASCII separators. -/
def isBlank (c : CodePoint) : Bool :=
  let n := c.toNat
  (9 ≤ n && n ≤ 13) || (28 ≤ n && n ≤ 32) || n == 0x85 || n == 0xA0 || n == 0x1680 ||
    (0x2000 ≤ n && n ≤ 0x200A) || n == 0x2028 || n == 0x2029 || n == 0x202F || n == 0x205F || n == 0x3000

/-- Letters, digits and the underscore of ASCII: what continues an identifier. -/
def isWordChar (c : CodePoint) : Bool :=
  c.isAlphanum || c == '_'

/-- A text of blanks only, the empty one included. -/
def allBlank (t : Text) : Bool := t.all isBlank

/-! ## Trimming -/

/-- The text without its longest tail of characters in a class. -/
def dropEndWhile (p : CodePoint → Bool) (t : Text) : Text :=
  (t.reverse.dropWhile p).reverse

/-- The text without the characters of a class at either end. -/
def trimWhile (p : CodePoint → Bool) (t : Text) : Text :=
  dropEndWhile p (t.dropWhile p)

/-- The text without the blanks at either end. -/
def strip (t : Text) : Text := trimWhile isBlank t

theorem dropWhile_eq_self {p : CodePoint → Bool} {t : Text} (h : ∀ c ∈ t.head?, p c = false) :
    t.dropWhile p = t := by
  cases t with
  | nil => rfl
  | cons c r => simp [h c (by simp)]

theorem head?_dropWhile_not {p : CodePoint → Bool} (t : Text) :
    ∀ c ∈ (t.dropWhile p).head?, p c = false := by
  induction t with
  | nil => simp
  | cons c r ih =>
    by_cases h : p c = true
    · simpa [h] using ih
    · simp [h]

/-- What is cut from the end is a tail, so a non-empty rest keeps its first character. -/
theorem head?_dropEndWhile {p : CodePoint → Bool} {t : Text} (h : dropEndWhile p t ≠ []) :
    (dropEndWhile p t).head? = t.head? := by
  have hp : dropEndWhile p t <+: t := by
    have := (List.dropWhile_suffix (l := t.reverse) p)
    simpa [dropEndWhile] using List.reverse_prefix.mpr this
  obtain ⟨s, hs⟩ := hp
  cases hd : dropEndWhile p t with
  | nil => exact absurd hd h
  | cons c r => rw [hd] at hs; rw [← hs]; rfl

theorem head?_trimWhile {p : CodePoint → Bool} (t : Text) : ∀ c ∈ (trimWhile p t).head?, p c = false := by
  intro c hc
  have hne : dropEndWhile p (t.dropWhile p) ≠ [] := fun hnil => by
    rw [trimWhile, hnil] at hc
    cases hc
  rw [trimWhile, head?_dropEndWhile hne] at hc
  exact head?_dropWhile_not t c hc

theorem getLast?_dropEndWhile {p : CodePoint → Bool} (t : Text) : ∀ c ∈ (dropEndWhile p t).getLast?, p c = false := by
  intro c hc
  rw [dropEndWhile, List.getLast?_reverse] at hc
  exact head?_dropWhile_not _ c hc

theorem getLast?_trimWhile {p : CodePoint → Bool} (t : Text) : ∀ c ∈ (trimWhile p t).getLast?, p c = false :=
  getLast?_dropEndWhile _

/-- A text with other characters at its ends is left as it is. -/
theorem trimWhile_eq_self {p : CodePoint → Bool} {t : Text} (hhead : ∀ c ∈ t.head?, p c = false)
    (hlast : ∀ c ∈ t.getLast?, p c = false) : trimWhile p t = t := by
  rw [trimWhile, dropWhile_eq_self hhead, dropEndWhile, dropWhile_eq_self, List.reverse_reverse]
  rwa [List.head?_reverse]

theorem trimWhile_idem (p : CodePoint → Bool) (t : Text) : trimWhile p (trimWhile p t) = trimWhile p t :=
  trimWhile_eq_self (head?_trimWhile t) (getLast?_trimWhile t)

theorem strip_strip (t : Text) : strip (strip t) = strip t := trimWhile_idem _ _

/-! ## Comparing and splitting -/

/-- What follows `start` in a text that begins with it. -/
def after? : (start t : Text) → Option Text
  | [], t => some t
  | _ :: _, [] => none
  | c :: cs, d :: ds => if c = d then after? cs ds else none

theorem after?_eq_some_iff {start t rest : Text} : after? start t = some rest ↔ t = start ++ rest := by
  induction start generalizing t with
  | nil => simp [after?, eq_comm]
  | cons c cs ih =>
    cases t with
    | nil => simp [after?]
    | cons d ds =>
      by_cases h : c = d
      · simp [after?, h, ih]
      · simp [after?, h, Ne.symm h]

@[simp] theorem after?_append (start rest : Text) : after? start (start ++ rest) = some rest :=
  after?_eq_some_iff.mpr rfl

/-- What precedes `stop` in a text that ends with it. -/
def before? (stop t : Text) : Option Text :=
  (after? stop.reverse t.reverse).map List.reverse

/-- A text begins with another one. -/
def startsWith (start t : Text) : Bool := (after? start t).isSome

/-- The order of texts, by the numbers of their characters; a text comes before its extensions. -/
def noLater : Text → Text → Bool
  | [], _ => true
  | _ :: _, [] => false
  | c :: cs, d :: ds => c.toNat < d.toNat || (c == d && noLater cs ds)

/-- A text occurs somewhere in another one. -/
def occursIn (part : Text) : Text → Bool
  | [] => part.isEmpty
  | c :: cs => startsWith part (c :: cs) || occursIn part cs

/-- The parts before and after the first character of a class. -/
def cut? (p : CodePoint → Bool) : Text → Option (Text × Text)
  | [] => none
  | c :: cs => if p c then some ([], cs) else (cut? p cs).map fun (a, b) => (c :: a, b)

/-- The pieces between the occurrences of a separator: one more than there are separators. -/
def fields (sep : CodePoint) : Text → List Text
  | [] => [[]]
  | c :: cs =>
    match fields sep cs with
    | [] => [[c]]
    | f :: fs => if c = sep then [] :: f :: fs else (c :: f) :: fs

/-- A separator opens a piece, and another character makes the first one longer. -/
theorem fields_cons {sep : CodePoint} {t f : Text} {fs : List Text} (h : fields sep t = f :: fs) (c : CodePoint) :
    fields sep (c :: t) = if c = sep then [] :: f :: fs else (c :: f) :: fs := by
  rw [fields, h]

/-- The non-empty runs of characters outside a class. -/
def runsOutside (p : CodePoint → Bool) : Text → List Text
  | [] => []
  | c :: cs =>
    if p c then runsOutside p cs
    else match cs, runsOutside p cs with
      | d :: _, w :: ws => if p d then [c] :: w :: ws else (c :: w) :: ws
      | _, ws => [c] :: ws

/-- The words of a text: its runs of non-blanks. -/
def words (t : Text) : List Text := runsOutside isBlank t

/-- Pieces put together with a separator between them. -/
def joinWith (sep : Text) : List Text → Text
  | [] => []
  | [t] => t
  | t :: ts => t ++ sep ++ joinWith sep ts

theorem joinWith_cons_cons (sep t u : Text) (ts : List Text) :
    joinWith sep (t :: u :: ts) = t ++ sep ++ joinWith sep (u :: ts) := rfl

/-- Every occurrence of one character replaced by another. -/
def replaceChar (old new : CodePoint) (t : Text) : Text :=
  t.map fun c => if c = old then new else c

/-! ## Line boundaries -/

/-- The characters that end a line for a reader of plain text. -/
def isLineBreak (c : CodePoint) : Bool :=
  let n := c.toNat
  (10 ≤ n && n ≤ 13) || (28 ≤ n && n ≤ 30) || n == 0x85 || n == 0x2028 || n == 0x2029

/-- The lines of a text under every line boundary of Unicode; a boundary at the end opens no line,
and a carriage return with the line feed after it is one boundary. -/
def splitLines : Text → List Text
  | [] => []
  | .char '\r' :: .char '\n' :: cs => [] :: splitLines cs
  | c :: cs =>
    if isLineBreak c then [] :: splitLines cs
    else match splitLines cs with
      | [] => [[c]]
      | l :: ls => (c :: l) :: ls

/-- Every line boundary written as a line feed: a carriage return counts alone or with the line feed
after it. -/
def universalNewlines : Text → Text
  | [] => []
  | .char '\r' :: .char '\n' :: cs => '\n' :: universalNewlines cs
  | .char '\r' :: cs => '\n' :: universalNewlines cs
  | c :: cs => c :: universalNewlines cs

/-- The part of a text before its only line feed, which must then be its last character; the whole of
a text without one. -/
def untilBreak? (t : Text) : Option Text :=
  let line := t.takeWhile fun (c : CodePoint) => c ≠ '\n'
  match t.drop line.length with
  | [] => some line
  | [_] => some line
  | _ => none

/-- The element a signed index names: a negative one counts from the end. -/
def signedIndex? (length : Nat) (index : Int) : Option Nat :=
  let i := if index < 0 then index + length else index
  if 0 ≤ i ∧ i < length then some i.toNat else none

/-- The elements from `start` up to `stop`, where a negative `stop` counts from the end. -/
def slice {α : Type} (xs : List α) (start : Nat) (stop : Int) : List α :=
  let stop := if stop < 0 then stop + xs.length else stop
  (xs.take stop.toNat).drop start

end Regraft

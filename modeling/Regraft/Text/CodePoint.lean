/-!
# Code points

A text is a sequence of code points. They are the characters and, besides them, the halves of surrogate pairs:
data that name the 16-bit units of a text can hold one half without the other. A half is in no class of
characters and has no bytes in UTF-8. The names of files are an exception: there, the halves from `0xDC80` to
`0xDCFF` stand for single bytes that are no part of a character.

* `CodePoint.ofNat`: the code point with a number (`ofNat_toNat`);
* `CodePoint.pair?`: the character that two halves make.
-/
namespace Regraft

/-- A character, or a half of a surrogate pair by its place among the halves. -/
inductive CodePoint where
  | char (c : Char)
  | half (place : Fin 0x800)
  deriving DecidableEq, Repr

namespace CodePoint

instance coeChar : Coe Char CodePoint := ⟨char⟩

instance defaultValue : Inhabited CodePoint := ⟨char default⟩

/-- The number of the first half. -/
def firstHalf : Nat := 0xD800

/-- The number of a code point. -/
def toNat : CodePoint → Nat
  | char c => c.toNat
  | half place => firstHalf + place

/-- The code point with a number; a number that is too large stands for the character 0. -/
def ofNat (n : Nat) : CodePoint :=
  if h : firstHalf ≤ n ∧ n < firstHalf + 0x800 then half ⟨n - firstHalf, by omega⟩ else char (Char.ofNat n)

theorem ofNat_toNat (c : CodePoint) : ofNat c.toNat = c := by
  cases c with
  | char c =>
    have valid := c.valid
    have outside : ¬ (firstHalf ≤ c.toNat ∧ c.toNat < firstHalf + 0x800) := by
      simp only [UInt32.isValidChar, Nat.isValidChar] at valid
      simp only [firstHalf, Char.toNat]
      omega
    simp [toNat, ofNat, outside]
  | half place =>
    have inside : firstHalf ≤ firstHalf + place.val ∧ firstHalf + place.val < firstHalf + 0x800 := by omega
    simp [toNat, ofNat, inside]

/-- The character, if the code point is one. -/
def char? : CodePoint → Option Char
  | char c => some c
  | half _ => none

/-- The code point is a half. -/
def isHalf (c : CodePoint) : Bool := c.char?.isNone

/-! ## Classes of characters -/

/-- A character of a class. -/
def isIn (p : Char → Bool) : CodePoint → Bool
  | char c => p c
  | half _ => false

/-- A digit of ASCII. -/
def isDigit : CodePoint → Bool := isIn Char.isDigit

/-- A letter of ASCII. -/
def isAlpha : CodePoint → Bool := isIn Char.isAlpha

/-- A letter or digit of ASCII. -/
def isAlphanum : CodePoint → Bool := isIn Char.isAlphanum

/-- A character changed; halves stay as they are. -/
def map (f : Char → Char) : CodePoint → CodePoint
  | char c => f c
  | half place => half place

/-- Letters of ASCII made small. -/
def toLower : CodePoint → CodePoint := map Char.toLower

/-- Letters of ASCII made large. -/
def toUpper : CodePoint → CodePoint := map Char.toUpper

/-! ## Halves -/

/-- The character that two code points make if they are the halves of a pair, the high one first. -/
def pair? : CodePoint → CodePoint → Option Char
  | half high, half low =>
    if high < 0x400 && 0x400 ≤ low.val then some (Char.ofNat (0x10000 + high * 0x400 + (low - 0x400))) else none
  | _, _ => none

/-- The byte that a code point stands for in the name of a file. -/
def byte? : CodePoint → Option UInt8
  | char _ => none
  | half place => if 0x480 ≤ place.val && place.val < 0x500 then some (UInt8.ofNat (place - 0x400)) else none

end CodePoint

export CodePoint (char)

end Regraft

import Regraft.Text.Basic
/-!
# The bytes of texts

Files hold texts in UTF-8, and names of files are bytes. A half of a surrogate pair has no bytes, but for the
halves that stand for a single byte in names.
-/
namespace Regraft

/-- The bytes of a code point. -/
def CodePoint.bytes (c : CodePoint) : List UInt8 :=
  match c with
  | .char c => String.utf8EncodeChar c
  | .half _ => c.byte?.toList

/-- A code point that has bytes. -/
def CodePoint.hasBytes (c : CodePoint) : Bool := !c.isHalf || c.byte?.isSome

/-- The bytes of a text. -/
def Text.bytes (t : Text) : List UInt8 := t.flatMap CodePoint.bytes

end Regraft

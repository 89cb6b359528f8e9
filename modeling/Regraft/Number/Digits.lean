import Regraft.Text.Basic
/-!
# Decimal digits

The decimal digits of Unicode come in runs of ten, from zero to nine. A run is known by its zero, so the
table lists the zeros only.
-/
namespace Regraft

/-- The code points of the digits zero. -/
def digitZeros : List Nat := [
  0x30, 0x660, 0x6f0, 0x7c0, 0x966, 0x9e6, 0xa66, 0xae6, 0xb66, 0xbe6, 0xc66, 0xce6, 0xd66, 0xde6,
  0xe50, 0xed0, 0xf20, 0x1040, 0x1090, 0x17e0, 0x1810, 0x1946, 0x19d0, 0x1a80, 0x1a90, 0x1b50,
  0x1bb0, 0x1c40, 0x1c50, 0xa620, 0xa8d0, 0xa900, 0xa9d0, 0xa9f0, 0xaa50, 0xabf0, 0xff10, 0x104a0,
  0x10d30, 0x11066, 0x110f0, 0x11136, 0x111d0, 0x112f0, 0x11450, 0x114d0, 0x11650, 0x116c0,
  0x11730, 0x118e0, 0x11950, 0x11c50, 0x11d50, 0x11da0, 0x16a60, 0x16ac0, 0x16b50, 0x1d7ce,
  0x1d7d8, 0x1d7e2, 0x1d7ec, 0x1d7f6, 0x1e140, 0x1e2f0, 0x1e950, 0x1fbf0]

/-- The value of a decimal digit of any script. -/
def digitValue? (c : CodePoint) : Option Nat :=
  (digitZeros.find? fun z => z ≤ c.toNat && c.toNat < z + 10).map (c.toNat - ·)

/-- A decimal digit of any script. -/
def isDecimalDigit (c : CodePoint) : Bool := (digitValue? c).isSome

/-- The number that digits stand for, the highest first. -/
def valueOfDigits (digits : List Nat) : Nat := digits.foldl (fun n d => 10 * n + d) 0

/-- The number that digits of ASCII stand for, the highest first. -/
def digitsValue (digits : Text) : Nat := valueOfDigits (digits.map fun c => c.toNat - '0'.toNat)

/-- A natural number in decimal notation. -/
def showNat (n : Nat) : Text := Text.ofChars (Nat.toDigits 10 n)

/-- A whole number in decimal notation. -/
def showInt : Int → Text
  | .ofNat n => showNat n
  | .negSucc n => '-' :: showNat (n + 1)

/-- A number padded with zeros to a width, behind its sign. -/
def showPadded (width : Nat) (n : Int) : Text :=
  let sign : Text := if n < 0 then ['-'] else []
  let digits := showNat n.natAbs
  sign ++ List.replicate (width - sign.length - digits.length) (char '0') ++ digits

/-- The longest decimal notation that is read as a whole number. -/
def longestInteger : Nat := 4300

end Regraft

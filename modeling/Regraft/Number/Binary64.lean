/-!
# Binary floating-point numbers, exactly

A finite number of the 64-bit format is a whole number times a power of two. `Binary64.ofFloat?` takes a
number apart, `Binary64.nearest` finds the number closest to a quotient, with ties going to the even
significand, and `Binary64.ofDecimal` reads a decimal that way.
-/
namespace Regraft

/-- The quotient rounded to the nearest whole number; a tie goes to the even one. -/
def roundDiv (num den : Nat) : Nat :=
  let q := num / den
  let r := 2 * (num % den)
  if den < r || (r == den && q % 2 == 1) then q + 1 else q

/-- A finite number: its sign, and `significand · 2 ^ exponent`. -/
structure Binary64 where
  negative : Bool
  significand : Nat
  exponent : Int
  deriving Repr

namespace Binary64

/-- The size of a number as a quotient: what stands above the line. -/
def numerator (b : Binary64) : Nat := b.significand * Nat.pow 2 b.exponent.toNat

/-- The size of a number as a quotient: what stands below the line. -/
def denominator (b : Binary64) : Nat := Nat.pow 2 (-b.exponent).toNat

/-- The number without its fraction. -/
def whole (b : Binary64) : Int :=
  let size : Nat := b.numerator / b.denominator
  if b.negative then -size else size

/-- The bit above the 52 of the fraction, which a normal number has without storing it. -/
def hiddenBit : Nat := 0x10000000000000

/-- The bit of the sign. -/
def signBit : Nat := 0x8000000000000000

/-- The least natural number that is too large for the format: half a unit, `2 ^ 970`, beyond its largest
number. -/
def overflowBound : Nat := 0x3FFFFFFFFFFFFF <<< 970

/-- The parts of a finite number; none for the infinities and for what is not a number. -/
def ofFloat? (x : Float) : Option Binary64 :=
  let bits : Nat := x.toBits.toNat
  let field : Nat := bits / hiddenBit % 2048
  let fraction : Nat := bits % hiddenBit
  let negative := bits / signBit == 1
  if field == 2047 then none
  else if field == 0 then some ⟨negative, fraction, -1074⟩
  else some ⟨negative, hiddenBit + fraction, (field : Int) - 1075⟩

/-- The number with a sign bit and the remaining bits. -/
def withBits (negative : Bool) (bits : Nat) : Float :=
  Float.ofBits (UInt64.ofNat ((if negative then signBit else 0) + bits))

/-- The bits of an infinity. -/
def infinityBits : Nat := 2047 * hiddenBit

/-- The quotient scaled by a power of two and rounded. -/
def roundScaled (num den : Nat) (exponent : Int) : Nat :=
  roundDiv (num * Nat.pow 2 (-exponent).toNat) (den * Nat.pow 2 exponent.toNat)

/-- The number nearest to a quotient, which must have a positive denominator. -/
def nearest (negative : Bool) (num den : Nat) : Float :=
  if num = 0 then withBits negative 0
  else
    let high : Int := (num.log2 : Int) - den.log2 - 52
    let isLower := num * Nat.pow 2 (-high).toNat < den * Nat.pow 2 high.toNat * hiddenBit
    let exponent : Int := max (-1074) (if isLower then high - 1 else high)
    let significand := roundScaled num den exponent
    let bits := (exponent + 1074).toNat * hiddenBit + significand
    withBits negative (min bits infinityBits)

/-- The number nearest to `significand · 10 ^ exponent`. -/
def ofDecimal (negative : Bool) (significand : Nat) (exponent : Int) : Float :=
  let size : Int := exponent + (Nat.toDigits 10 significand).length
  if significand = 0 || size < -400 then withBits negative 0
  else if 400 < size then withBits negative infinityBits
  else nearest negative (significand * Nat.pow 10 exponent.toNat) (Nat.pow 10 (-exponent).toNat)

end Binary64

end Regraft

import Regraft.Number.Binary64
import Regraft.Number.Digits
/-!
# Decimal notation of floating-point numbers

Two notations: with a fixed number of places, rounded exactly (`showFixed`), and with the fewest digits
that read back as the same number (`showShortest`). The digits of the second come from `shortestDigits`,
which tries one to seventeen digits and takes the first decimal grid with a point in the interval of
reals that round to the number.
-/
namespace Regraft

/-- The texts of the numbers that have no digits. -/
structure NonFinite where
  infinity : Text
  notANumber : Text

/-- How numbers without digits are written for people. -/
def plainNonFinite : NonFinite := ⟨"inf", "nan"⟩

/-- How numbers without digits are written in data files. -/
def dataNonFinite : NonFinite := ⟨"Infinity", "NaN"⟩

/-- The text of an infinity, or of what is not a number. -/
def NonFinite.text (names : NonFinite) (x : Float) : Text :=
  if x.isNaN then names.notANumber
  else if x < 0 then '-' :: names.infinity
  else names.infinity

/-! ## Fixed places -/

/-- The digits of a whole number of units, with the point before the last `places` digits. -/
def placePoint (places units : Nat) : Text :=
  let digits := showNat units
  let padded := List.replicate (places + 1 - digits.length) (char '0') ++ digits
  let fraction : Text := if places = 0 then [] else '.' :: padded.drop (padded.length - places)
  padded.take (padded.length - places) ++ fraction

/-- A number of units `10 ^ -places`, rounded to the nearest, ties to the even one. -/
def unitsOf (places : Nat) (b : Binary64) : Nat :=
  roundDiv (b.numerator * Nat.pow 10 places) b.denominator

/-- A number with a fixed number of places. -/
def showFixed (places : Nat) (x : Float) : Text :=
  match Binary64.ofFloat? x with
  | none => plainNonFinite.text x
  | some b => (if b.negative then [char '-'] else []) ++ placePoint places (unitsOf places b)

/-- The number nearest to a number rounded to a fixed number of places. -/
def roundPlaces (places : Nat) (x : Float) : Float :=
  match Binary64.ofFloat? x with
  | none => x
  | some b => Binary64.nearest b.negative (unitsOf places b) (Nat.pow 10 places)

/-! ## Fewest digits -/

/-- `a · 10 ^ p ≤ b · 2 ^ q`, compared exactly. -/
def decimalLe (a : Nat) (p : Int) (b : Nat) (q : Int) : Bool :=
  a * Nat.pow 10 p.toNat * Nat.pow 2 (-q).toNat ≤ b * Nat.pow 2 q.toNat * Nat.pow 10 (-p).toNat

/-- `b · 2 ^ q ≤ a · 10 ^ p`, compared exactly. -/
def binaryLe (b : Nat) (q : Int) (a : Nat) (p : Int) : Bool :=
  b * Nat.pow 2 q.toNat * Nat.pow 10 (-p).toNat ≤ a * Nat.pow 10 p.toNat * Nat.pow 2 (-q).toNat

/-- A decimal: `digits · 10 ^ exponent`. -/
structure Decimal where
  digits : Nat
  exponent : Int
  deriving Repr

namespace Binary64

variable (b : Binary64)

/-- The decimal lies among the reals that round to the number. In quarters of the unit `2 ^ exponent`
they reach two up and two down, but only one down from the lowest number of a binade; the ends belong
to them for an even significand. -/
def roundsFrom (d : Decimal) : Bool :=
  let quarter := b.exponent - 2
  let low := 4 * b.significand - (if b.significand == hiddenBit && b.exponent > -1074 then 1 else 2)
  let high := 4 * b.significand + 2
  if b.significand % 2 == 0 then
    binaryLe low quarter d.digits d.exponent && decimalLe d.digits d.exponent high quarter
  else
    !decimalLe d.digits d.exponent low quarter && !binaryLe high quarter d.digits d.exponent

/-- The least power of ten above the number. -/
def powerAbove : Int :=
  let guess := ((b.significand.log2 : Int) + b.exponent) * 30103 / 100000
  ([guess - 1, guess, guess + 1, guess + 2].find? fun p =>
    !decimalLe 1 p b.significand b.exponent).getD (guess + 2)

/-- The neighbour on a decimal grid, below or above, that reads back as the number; of two the nearer. -/
def onGrid? (exponent : Int) : Option Decimal :=
  let below := b.numerator * Nat.pow 10 (-exponent).toNat / (Nat.pow 10 exponent.toNat * b.denominator)
  let down : Decimal := ⟨below, exponent⟩
  let up : Decimal := ⟨below + 1, exponent⟩
  match b.roundsFrom down, b.roundsFrom up with
  | true, false => some down
  | false, true => some up
  | true, true =>
    -- the number against the middle of the two neighbours, which ends in the digit five
    let middle := 10 * below + 5
    if decimalLe middle (exponent - 1) b.significand b.exponent then
      if binaryLe b.significand b.exponent middle (exponent - 1) && below % 2 == 0 then some down else some up
    else some down
  | false, false => none

/-- The decimal with the fewest digits that reads back as a positive number, and the nearest of those. -/
def shortest : Decimal :=
  let power := b.powerAbove
  ((List.range 17).findSome? fun (n : Nat) => b.onGrid? (power - (n + 1))).getD ⟨0, 0⟩

end Binary64

/-- Digits without the zeros at their end. -/
def trimZeros (digits : Text) : Text := dropEndWhile (· == '0') digits

/-- Positional or scientific notation of the digits `0.d₁d₂… · 10 ^ point`: positional up to sixteen digits
before the point and three zeros after it. -/
def placeDigits (digits : Text) (point : Int) : Text :=
  if -4 < point && point ≤ 16 then
    if point ≤ 0 then char '0' :: char '.' :: (List.replicate (-point).toNat (char '0') ++ digits)
    else
      let whole := digits.take point.toNat
      let places := digits.drop point.toNat
      let fraction : Text := '.' :: if places.isEmpty then ['0'] else places
      whole ++ List.replicate (point.toNat - whole.length) (char '0') ++ fraction
  else
    let power := point - 1
    let mark : Text := if power < 0 then ['e', '-'] else ['e', '+']
    let fraction : Text := if digits.length ≤ 1 then [] else '.' :: digits.drop 1
    digits.take 1 ++ fraction ++ mark ++ showPadded 2 power.natAbs

/-- A number with the fewest digits that read back, always with a point or an exponent. -/
def showShortest (names : NonFinite) (x : Float) : Text :=
  match Binary64.ofFloat? x with
  | none => names.text x
  | some b =>
    let sign : Text := if b.negative then ['-'] else []
    if b.significand = 0 then sign ++ [char '0', char '.', char '0']
    else
      let d := b.shortest
      let digits := showNat d.digits
      sign ++ placeDigits (trimZeros digits) (digits.length + d.exponent)

end Regraft

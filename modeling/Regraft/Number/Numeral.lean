import Regraft.Number.Binary64
import Regraft.Number.Digits
/-!
# Numerals

Numbers in the digits of ASCII, as data and command lines write them. `plainInteger?` reads the one form of
a whole number that data have; `numeral?` also reads numbers with blanks around them, a sign, zeros in front,
zeros behind a point and single underscores, and `decimal?` reads decimals, infinities and what is not a
number.
-/
namespace Regraft

/-! ## Parts -/

/-- The blanks that may stand around a number: all but the four ASCII separators. -/
def isNumberBlank (c : CodePoint) : Bool :=
  isBlank c && !(28 ≤ c.toNat && c.toNat ≤ 31)

/-- A sign, and the rest. -/
def takeSign : Text → Bool × Text
  | .char '-' :: rest => (true, rest)
  | .char '+' :: rest => (false, rest)
  | rest => (false, rest)

/-- The exponent behind a number, and the rest. -/
def takePower (t : Text) : Option Int × Text :=
  match t with
  | c :: rest =>
    if c == 'e' || c == 'E' then
      let (negative, body) := takeSign rest
      let digits := body.takeWhile CodePoint.isDigit
      if digits.isEmpty then (none, t)
      else
        let n : Int := digitsValue digits
        (some (if negative then -n else n), body.drop digits.length)
    else (none, t)
  | [] => (none, [])

/-- A text without its underscores, none of which stands at an end or beside another one. -/
def dropUnderscores? (t : Text) : Option Text :=
  let groups := fields '_' t
  if groups.any List.isEmpty then none else some groups.flatten

/-! ## Whole numbers -/

/-- A whole number in digits, the first of which is a zero only if it is alone, perhaps behind a minus sign. -/
def plainInteger? (t : Text) : Option Int :=
  let (negative, digits) : Bool × Text := match t with
    | .char '-' :: digits => (true, digits)
    | digits => (false, digits)
  if digits.isEmpty || !digits.all CodePoint.isDigit || (digits.head? = some '0' && digits.length ≠ 1) then none
  else if longestInteger < digits.length then none
  else some (if negative then -(digitsValue digits : Int) else digitsValue digits)

/-- A numeral from behind `zero`, which is a zero or an underscore in front of it. It stays if nothing else
does, and before a point. -/
def behindZero (zero : CodePoint) : Text → Option Text
  | [] => some [zero]
  | c :: rest =>
    if c = '0' ∨ c = '_' then behindZero c rest
    else if c = '.' then some (zero :: c :: rest)
    else if c = '-' ∨ c.isDigit then some (c :: rest)
    else none

/-- A numeral without the zeros in front, which may stand before its minus sign or else behind it. -/
def dropFrontZeros? : Text → Option Text
  | [] => none
  | c :: rest =>
    if c = '0' then behindZero c rest
    else if c = '-' then (dropFrontZeros? rest).map (c :: ·)
    else if c.isDigit then some (c :: rest)
    else none

/-- A numeral without the zeros behind its point, if that is all there is behind it. -/
def dropZeroPlaces (t : Text) : Text :=
  match cut? (· == '.') t with
  | some (whole, places) => if !places.isEmpty && places.all (· == '0') then whole else t
  | none => t

/-- The whole number that a numeral stands for. -/
def numeral? (t : Text) : Option Int :=
  (plainInteger? t).orElse fun _ => do
    let body ← match trimWhile isNumberBlank t with
      | .char '+' :: .char '-' :: _ => none
      | .char '+' :: body => some body
      | body => some body
    plainInteger? (← dropUnderscores? (dropZeroPlaces (← dropFrontZeros? body)))

/-! ## Decimals -/

/-- The numbers that are written as words, in small letters. -/
def namedFloat? (t : Text) : Option Float :=
  let infinity := Binary64.withBits false Binary64.infinityBits
  if t = "inf" || t = "infinity" then some infinity
  else if t = "nan" then some (infinity - infinity)
  else none

/-- A word for a number, or digits that may have a point and an exponent; rounded to the nearest number there
is. -/
def plainDecimal? (t : Text) : Option Float :=
  let (negative, body) := takeSign t
  match namedFloat? (body.map CodePoint.toLower) with
  | some x => some (if negative then -x else x)
  | none =>
    let whole := body.takeWhile CodePoint.isDigit
    let rest := body.drop whole.length
    let (places, rest) : Text × Text := match rest with
      | .char '.' :: rest => (rest.takeWhile CodePoint.isDigit, rest.dropWhile CodePoint.isDigit)
      | rest => ([], rest)
    if whole.isEmpty && places.isEmpty then none
    else match takePower rest with
      | (power, []) =>
        some (Binary64.ofDecimal negative (digitsValue (whole ++ places)) (power.getD 0 - places.length))
      | _ => none

/-- The number that a decimal stands for: it may have blanks around it or underscores within, but not both. -/
def decimal? (t : Text) : Option Float :=
  (plainDecimal? (trimWhile isNumberBlank t)).orElse fun _ => (dropUnderscores? t).bind plainDecimal?

end Regraft

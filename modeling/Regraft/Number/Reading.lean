import Regraft.Number.Numeral
/-!
# Reading numbers from texts

Numbers in settings may be written with blanks around them, a sign, the decimal digits of any script and
single underscores between digits. `readInt?` reads whole numbers and `readFloat?` decimals, infinities
and what is not a number.
-/
namespace Regraft

/-- The digits behind a digit: more digits, each with at most one underscore before it. -/
def digitsAfter : Text → List Nat × Text
  | .char '_' :: c :: rest =>
    match digitValue? c with
    | some d => let (ds, rest) := digitsAfter rest; (d :: ds, rest)
    | none => ([], '_' :: c :: rest)
  | c :: rest =>
    match digitValue? c with
    | some d => let (ds, rest) := digitsAfter rest; (d :: ds, rest)
    | none => ([], c :: rest)
  | [] => ([], [])

/-- A run of digits at the start of a text, which may be empty. -/
def takeDigits : Text → List Nat × Text
  | c :: rest =>
    match digitValue? c with
    | some d => let (ds, rest) := digitsAfter rest; (d :: ds, rest)
    | none => ([], c :: rest)
  | [] => ([], [])

/-- A whole number written in a text. -/
def readInt? (t : Text) : Option Int :=
  let (negative, body) := takeSign (trimWhile isNumberBlank t)
  match takeDigits body with
  | (d :: ds, []) =>
    if longestInteger < ds.length + 1 then none
    else
      let n := valueOfDigits (d :: ds)
      some (if negative then -n else n)
  | _ => none

/-- The exponent at the end of a decimal: 0 if there is none. -/
def readExponent? : Text → Option Int
  | [] => some 0
  | c :: rest =>
    if c == 'e' || c == 'E' then
      let (negative, body) := takeSign rest
      match takeDigits body with
      | (d :: ds, []) =>
        let n := valueOfDigits (d :: ds)
        some (if negative then -n else n)
      | _ => none
    else none

/-- A number written in a text, rounded to the nearest one there is. -/
def readFloat? (t : Text) : Option Float :=
  let (negative, body) := takeSign (trimWhile isNumberBlank t)
  match namedFloat? (body.map CodePoint.toLower) with
  | some x => some (if negative then -x else x)
  | none =>
    let (whole, rest) := takeDigits body
    let (places, rest) := match rest with
      | .char '.' :: rest => takeDigits rest
      | rest => ([], rest)
    if whole.isEmpty && places.isEmpty then none
    else (readExponent? rest).map fun e =>
      Binary64.ofDecimal negative (valueOfDigits (whole ++ places)) (e - places.length)

end Regraft

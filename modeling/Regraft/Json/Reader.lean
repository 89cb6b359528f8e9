import Regraft.Json.Basic
import Regraft.Number.Numeral
/-!
# Reading JSON

`Json.read` accepts exactly one JSON value with blanks around it, and besides the standard the names of the
infinities and of what is not a number. A whole number may have `longestInteger` digits, and arrays and
objects may stand `deepest` deep in each other. Of the members of an object with one key the last one counts.
-/
namespace Regraft.Json

/-- The blanks between the parts of a value. -/
def isSpace (c : CodePoint) : Bool := c == ' ' || c == '\t' || c == '\n' || c == '\r'

/-- The text from its first non-blank on. -/
def skipSpace (t : Text) : Text := t.dropWhile isSpace

/-! ## Texts -/

/-- The value of a hexadecimal digit. -/
def hexValue? (c : CodePoint) : Option Nat :=
  let n := c.toNat
  if '0'.toNat ≤ n ∧ n ≤ '9'.toNat then some (n - '0'.toNat)
  else if 'a'.toNat ≤ n ∧ n ≤ 'f'.toNat then some (n - 'a'.toNat + 10)
  else if 'A'.toNat ≤ n ∧ n ≤ 'F'.toNat then some (n - 'A'.toNat + 10)
  else none

/-- The number that four hexadecimal digits stand for. -/
def codeUnit? (a b c d : CodePoint) : Option Nat := do
  let a ← hexValue? a
  let b ← hexValue? b
  let c ← hexValue? c
  let d ← hexValue? d
  return ((a * 16 + b) * 16 + c) * 16 + d

/-- The character that a backslash and one letter stand for. -/
def escaped? : CodePoint → Option CodePoint
  | .char '"' => some '"'
  | .char '\\' => some '\\'
  | .char '/' => some '/'
  | .char 'b' => some '\x08'
  | .char 'f' => some '\x0c'
  | .char 'n' => some '\n'
  | .char 'r' => some '\r'
  | .char 't' => some '\t'
  | _ => none

/-- What an escape stands for, from behind its backslash, and the rest. -/
def takeEscape? : Text → Option (CodePoint × Text)
  | .char 'u' :: a :: b :: c :: d :: rest => (codeUnit? a b c d).map fun n => (CodePoint.ofNat n, rest)
  | c :: rest => (escaped? c).map fun e => (e, rest)
  | [] => none

/-- The code points that are written from behind an opening quote up to the closing one, and what follows it. -/
def readWritten : Text → Option (Text × Text)
  | [] => none
  | .char '"' :: rest => some ([], rest)
  | .char '\\' :: .char 'u' :: a :: b :: c :: d :: rest =>
    match codeUnit? a b c d with
    | some n => (readWritten rest).map fun (t, rest) => (CodePoint.ofNat n :: t, rest)
    | none => none
  | .char '\\' :: c :: rest =>
    match escaped? c with
    | some e => (readWritten rest).map fun (t, rest) => (e :: t, rest)
    | none => none
  | c :: rest =>
    if c.toNat < 32 then none
    else (readWritten rest).map fun (t, rest) => (c :: t, rest)

/-- A text in which the two halves of a pair, one behind the other, are one character. -/
def joinPairs : Text → Text
  | [] => []
  | [c] => [c]
  | c :: d :: rest =>
    match c.pair? d with
    | some e => e :: joinPairs rest
    | none => c :: joinPairs (d :: rest)

/-- A text from behind its opening quote, and what follows its closing quote. -/
def readText (t : Text) : Option (Text × Text) :=
  (readWritten t).map fun (t, rest) => (joinPairs t, rest)

/-! ## Numbers -/

/-- The whole part of a number: a zero alone, or digits that do not start with one. -/
def takeWhole : Text → Text × Text
  | .char '0' :: rest => (['0'], rest)
  | t => (t.takeWhile CodePoint.isDigit, t.dropWhile CodePoint.isDigit)

/-- A point and the digits behind it, of which there is at least one. -/
def takePlaces (t : Text) : Option Text × Text :=
  match t with
  | .char '.' :: rest =>
    let digits := rest.takeWhile CodePoint.isDigit
    if digits.isEmpty then (none, t) else (some digits, rest.dropWhile CodePoint.isDigit)
  | _ => (none, t)

/-- An infinity. -/
def infinity (negative : Bool) : Float := Binary64.withBits negative Binary64.infinityBits

/-- A number from behind its sign, and the rest. -/
def readUnsigned (negative : Bool) (t : Text) : Option (Json × Text) :=
  let (whole, rest) := takeWhole t
  if whole.isEmpty then
    if negative then (after? "Infinity" t).map fun rest => (.float (infinity true), rest) else none
  else
    let (places, rest) := takePlaces rest
    let (power, rest) := takePower rest
    if places.isNone && power.isNone then
      if longestInteger < whole.length then none
      else
        let n := digitsValue whole
        some (.int (if negative then -n else n), rest)
    else
      let digits := places.getD []
      let power := power.getD 0 - digits.length
      some (.float (Binary64.ofDecimal negative (digitsValue (whole ++ digits)) power), rest)

/-- A number, and the rest. -/
def readNumber (t : Text) : Option (Json × Text) :=
  match t with
  | .char '-' :: rest => readUnsigned true rest
  | _ => readUnsigned false t

/-! ## Values -/

/-- A value that is written as a word, and the rest. -/
def readWord (t : Text) : Option (Json × Text) :=
  let word (w : Text) (value : Json) := (after? w t).map fun rest => (value, rest)
  (word "null" .null).orElse fun _ =>
  (word "true" (.bool true)).orElse fun _ =>
  (word "false" (.bool false)).orElse fun _ =>
  (word "NaN" (.float (infinity false - infinity false))).orElse fun _ =>
  word "Infinity" (.float (infinity false))

/-- Why a text is not read as a value. -/
inductive ReadFault where
  /-- It is not one value. -/
  | malformed
  /-- Arrays and objects stand too deep in each other. -/
  | tooDeep
  deriving DecidableEq, Repr

/-- What is there, or the text is not one value. -/
def orMalformed {α : Type} : Option α → Except ReadFault α
  | some a => .ok a
  | none => .error .malformed

/-- How deep arrays and objects may stand in each other. -/
def deepest : Nat := 985

mutual

/-- A value at the start of a text, and the rest. `depth` is how deep arrays and objects may still go; `fuel`
bounds the number of parts, for which the length of the text is enough. -/
def readValue : (fuel depth : Nat) → Text → Except ReadFault (Json × Text)
  | 0, _, _ => .error .malformed
  | fuel + 1, depth, t =>
    match t, depth with
    | .char '"' :: rest, _ => orMalformed ((readText rest).map fun (s, rest) => (.text s, rest))
    | .char '[' :: _, 0 | .char '\x7b' :: _, 0 => .error .tooDeep
    | .char '[' :: rest, depth + 1 =>
      match skipSpace rest with
      | .char ']' :: rest => .ok (.array [], rest)
      | rest => (readItems fuel depth rest).map fun (items, rest) => (.array items, rest)
    | .char '\x7b' :: rest, depth + 1 =>
      match skipSpace rest with
      | .char '\x7d' :: rest => .ok (.object [], rest)
      | rest => (readMembers fuel depth rest).map fun (members, rest) => (.object (Table.ofEntries members), rest)
    | t, _ => orMalformed ((readWord t).orElse fun _ => readNumber t)

/-- The items of an array from its first one on, and what follows the bracket. -/
def readItems : (fuel depth : Nat) → Text → Except ReadFault (List Json × Text)
  | 0, _, _ => .error .malformed
  | fuel + 1, depth, t => do
    let (value, rest) ← readValue fuel depth t
    match skipSpace rest with
    | .char ',' :: rest => do
      let (items, rest) ← readItems fuel depth (skipSpace rest)
      return (value :: items, rest)
    | .char ']' :: rest => return ([value], rest)
    | _ => throw .malformed

/-- The members of an object from its first one on, and what follows the brace. -/
def readMembers : (fuel depth : Nat) → Text → Except ReadFault (List (Text × Json) × Text)
  | 0, _, _ => .error .malformed
  | fuel + 1, depth, t =>
    match t with
    | .char '"' :: rest => do
      let (key, rest) ← orMalformed (readText rest)
      match skipSpace rest with
      | .char ':' :: rest => do
        let (value, rest) ← readValue fuel depth (skipSpace rest)
        match skipSpace rest with
        | .char ',' :: rest => do
          let (members, rest) ← readMembers fuel depth (skipSpace rest)
          return ((key, value) :: members, rest)
        | .char '\x7d' :: rest => return ([(key, value)], rest)
        | _ => throw .malformed
      | _ => throw .malformed
    | _ => .error .malformed

end

/-- The one value that a text holds. -/
def read (t : Text) : Except ReadFault Json := do
  let (value, rest) ← readValue (t.length + 1) deepest (skipSpace t)
  if (skipSpace rest).isEmpty then return value else throw .malformed

end Regraft.Json

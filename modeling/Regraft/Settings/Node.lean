import Regraft.Settings.Shown
import Regraft.Number.Numeral
import Regraft.Table
/-!
# Nodes of settings files

A settings file is read into nodes, which hold texts as they are written. `Node.value` says what a node stands for:
a plain text that looks like a number, a truth value or nothing is one; a number with an exponent needs a point
and the sign of the exponent. `Node.overlong?` finds a whole number with more digits than are read.
-/
namespace Regraft.Flow

/-- A part of a settings file. -/
inductive Node where
  | quoted (t : Text)
  /-- A text without quotes; the empty one stands where nothing is written. -/
  | plain (t : Text)
  | list (items : List Node)
  | mapping (members : List (Node × Node))
  deriving Inhabited

/-! ## What plain texts stand for -/

/-- The words for nothing. -/
def nullWords : List Text := [[], ['~'], "null", "Null", "NULL"]

/-- The words for truth values, in small letters. -/
def truthWords : List (Text × Bool) :=
  [("yes", true), ("no", false), ("true", true), ("false", false),
   ("on", true), ("off", false)]

/-- The value of a word, which may be written small, large or with a capital. -/
def truth? (t : Text) : Option Bool :=
  (truthWords.find? fun (w, _) =>
    t = w || t = w.map CodePoint.toUpper || t = (w.take 1).map CodePoint.toUpper ++ w.drop 1).map Prod.snd

/-- The exponent behind the places of a number: a letter, a sign and digits; 0 if there is nothing. -/
def signedPower? : Text → Option Int
  | [] => some 0
  | c :: sign :: digits =>
    if (c == 'e' || c == 'E') && (sign == '-' || sign == '+') && !digits.isEmpty && digits.all CodePoint.isDigit then
      let n : Int := digitsValue digits
      some (if sign == '-' then -n else n)
    else none
  | _ => none

/-- A number behind its sign: a whole one without a zero in front, or one with a point. -/
def number? (negative : Bool) (t : Text) : Option Json :=
  let whole := t.takeWhile CodePoint.isDigit
  match whole, t.drop whole.length with
  | [], _ => none
  | first :: more, [] =>
    if first = '0' ∧ more ≠ [] then none
    else some (.int (if negative then -(digitsValue whole : Int) else digitsValue whole))
  | _, .char '.' :: rest =>
    let places := rest.takeWhile CodePoint.isDigit
    (signedPower? (rest.drop places.length)).map fun power =>
      .float (Binary64.ofDecimal negative (digitsValue (whole ++ places)) (power - places.length))
  | _, _ => none

/-- What a plain text stands for. -/
def plainValue (t : Text) : Json :=
  if t ∈ nullWords then .null
  else match truth? t with
    | some b => .bool b
    | none =>
      let (negative, body) := takeSign t
      (number? negative body).getD (.text t)

namespace Node

mutual

/-- What a node stands for. -/
def value : Node → Json
  | quoted t => .text t
  | plain t => plainValue t
  | list items => .array (values items)
  | mapping members => .object (Table.ofEntries (entries members))

/-- What the items of a list stand for. -/
def values : List Node → List Json
  | [] => []
  | item :: items => item.value :: values items

/-- What the members of a mapping stand for. -/
def entries : List (Node × Node) → List (Text × Json)
  | [] => []
  | (key, item) :: members => (key.value.plainText, item.value) :: entries members

end

/-! ## Whole numbers that are too long -/

/-- The number of digits of a whole number that has more than are read. -/
def excess? : Node → Option Nat
  | plain t =>
    let count := (t.filter CodePoint.isDigit).length
    if plainValue t matches .int _ && longestInteger < count then some count else none
  | _ => none

/-- The nodes right below a node. -/
def parts : Node → List Node
  | list items => items
  | mapping members => members.flatMap fun (key, item) => [key, item]
  | _ => []

/-- The first whole number with too many digits, looked for level by level. -/
def firstExcess? : (depth : Nat) → List Node → Option Nat
  | 0, _ => none
  | depth + 1, level => (level.findSome? excess?).orElse fun _ => firstExcess? depth (level.flatMap parts)

end Node

end Regraft.Flow

import Regraft.Table
import Regraft.Number.Digits
/-!
# JSON values

The values that artifacts, reports, telemetry and settings files are made of. Whole numbers are exact,
other numbers are floating point, and an object keeps its members in the order in which they came.
-/
namespace Regraft

/-- A JSON value. -/
inductive Json where
  | null
  | bool (value : Bool)
  | int (value : Int)
  | float (value : Float)
  | text (value : Text)
  | array (items : List Json)
  | object (members : List (Text × Json))
  deriving Inhabited

namespace Json

instance : Coe Text Json := ⟨Json.text⟩

/-- A text written as a constant. -/
def lit (s : String) : Json := .text s

/-- A list of texts. -/
def texts (ts : List Text) : Json := .array (ts.map .text)

/-- An object from members whose keys are written as constants. -/
def record (members : List (String × Json)) : Json :=
  .object (members.map fun (key, v) => (Text.ofString key, v))

/-- A value that may be absent. -/
def optional {α : Type} (f : α → Json) : Option α → Json
  | some a => f a
  | none => .null

/-- The member of an object; nothing for other values and absent members. -/
def get? (key : Text) : Json → Option Json
  | object members => Table.get? key members
  | _ => none

/-- The members of an object. -/
def members? : Json → Option (Table Json)
  | object members => some members
  | _ => none

/-- The items of an array. -/
def items? : Json → Option (List Json)
  | array items => some items
  | _ => none

/-- The characters of a text. -/
def text? : Json → Option Text
  | text t => some t
  | _ => none

/-- What a condition takes for false: nothing, zero, and whatever is empty. -/
def isEmptyLike : Json → Bool
  | null => true
  | bool b => !b
  | int n => n == 0
  | float x => x == 0
  | text t => t.isEmpty
  | array items => items.isEmpty
  | object members => members.isEmpty

end Json

end Regraft

import Regraft.Json.Basic
import Regraft.Number.Decimal
import Regraft.Text.Shown
/-!
# Values in messages

Messages about settings quote the value they are about in a notation of their own: texts in single quotes
unless that would need more escapes than double ones, and words for the values that are no texts.
-/
namespace Regraft

namespace Json

/-- A value without parts. -/
def shownLeaf : Json → Text
  | .null => "None"
  | .bool true => "True"
  | .bool false => "False"
  | .int n => showInt n
  | .float x => showShortest plainNonFinite x
  | .text t => showQuoted t
  | _ => []

mutual

/-- A value as messages quote it. -/
def shown : Json → Text
  | .array items => char '[' :: shownItems items ++ [char ']']
  | .object members => char '\x7b' :: shownMembers members ++ [char '\x7d']
  | leaf => shownLeaf leaf

/-- The items of an array as messages quote them. -/
def shownItems : List Json → Text
  | [] => []
  | [v] => shown v
  | v :: vs => shown v ++ char ',' :: char ' ' :: shownItems vs

/-- The members of an object as messages quote them. -/
def shownMembers : List (Text × Json) → Text
  | [] => []
  | [(k, v)] => showQuoted k ++ char ':' :: char ' ' :: shown v
  | (k, v) :: ms => showQuoted k ++ char ':' :: char ' ' :: (shown v ++ char ',' :: char ' ' :: shownMembers ms)

end

/-- A value as a text: a text as it is, another value as messages quote it. -/
def plainText : Json → Text
  | .text t => t
  | v => shown v

end Json

end Regraft

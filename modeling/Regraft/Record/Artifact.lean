import Regraft.Record.Moment
import Regraft.Json.Writer
/-!
# Artifacts

A version is stored as a JSON text. `Version.toJson` writes the fields in the order of the types;
`Version.ofJson?` and `Record.ofJson?` read them back and refuse unknown fields, missing ones and values
of the wrong kind. Whole numbers are also read from texts, truth values and numbers without a fraction.
-/
namespace Regraft

/-! ## The words of the format -/

/-- The word for a kind of change. -/
def ChangeKind.word : ChangeKind → Text
  | addition => "addition"
  | deletion => "deletion"

/-- The kind of change that a word stands for. -/
def ChangeKind.ofWord? (t : Text) : Option ChangeKind :=
  [ChangeKind.addition, .deletion].find? (·.word = t)

/-- The word for a guard style. -/
def GuardStyle.word : GuardStyle → Text
  | block => "block"
  | singleLine => "single_line"
  | nextLine => "next_line"

/-- The guard style that a word stands for. -/
def GuardStyle.ofWord? (t : Text) : Option GuardStyle :=
  [GuardStyle.block, .singleLine, .nextLine].find? (·.word = t)

/-! ## Writing -/

/-- A record as a JSON object. -/
def Record.toJson (r : Record) : Json :=
  .record [
    ("target_path", .text r.targetPath),
    ("kind", .text r.kind.word),
    ("style", .text r.style.word),
    ("comment", .text r.comment),
    ("indent", .text r.indent),
    ("preceding", .texts r.preceding),
    ("following", .texts r.following),
    ("body", .texts r.body),
    ("stock", .texts r.stock),
    ("blank_stock", .array (r.blankStock.map .int)),
    ("replacement_style", .optional (fun s => .text s.word) r.replacementStyle),
    ("replacement_comment", .text r.replacementComment),
    ("replacement_indent", .text r.replacementIndent),
    ("anchor", .int r.anchor),
    ("order", .int r.order)]

/-- A version as a JSON object. -/
def Version.toJson (v : Version) : Json :=
  .record [
    ("order", .int v.order),
    ("created_at", .text v.created.showZulu),
    ("records", .array (v.records.map Record.toJson))]

/-- The text of a version's artifact. -/
def Version.artifact (v : Version) : Text :=
  Json.indented Json.quoteRaw 0 v.toJson ++ [char '\n']

/-! ## Reading -/

namespace Json

/-- The whole number that a floating-point number is, within 64 bits with a sign. -/
def wholeFloat? (x : Float) : Option Int :=
  (Binary64.ofFloat? x).bind fun b =>
    if b.numerator % b.denominator = 0 && b.whole.natAbs < Binary64.signBit then some b.whole else none

/-- The whole number that a value stands for. -/
def whole? : Json → Option Int
  | int n => some n
  | bool b => some (if b then 1 else 0)
  | float x => wholeFloat? x
  | text t => numeral? t
  | _ => none

/-- The list that an array holds, if every item can be read. -/
def list? {α : Type} (read : Json → Option α) : Json → Option (List α)
  | array items => items.mapM read
  | _ => none

/-- A field that must be there. -/
def required? {α : Type} (read : Json → Option α) (key : String) (members : Table Json) : Option α :=
  (Table.get? (key : Text) members).bind read

/-- A field that has a value of its own when it is absent. -/
def default? {α : Type} (read : Json → Option α) (key : String) (value : α) (members : Table Json) : Option α :=
  match Table.get? (key : Text) members with
  | some v => read v
  | none => some value

/-- There are no fields but these. -/
def onlyFields (keys : List String) (members : Table Json) : Bool :=
  members.all fun m => keys.any fun k => m.1 = k

end Json

/-- The fields of a record. -/
def Record.fieldNames : List String :=
  ["target_path", "kind", "style", "comment", "indent", "preceding", "following", "body", "stock",
   "blank_stock", "replacement_style", "replacement_comment", "replacement_indent", "anchor", "order"]

/-- The record that a JSON object describes. -/
def Record.ofJson? (value : Json) : Option Record := do
  let members ← value.members?
  if !Json.onlyFields Record.fieldNames members then none
  let word := fun {α : Type} (f : Text → Option α) (v : Json) => v.text?.bind f
  return {
    targetPath := ← Json.required? Json.text? "target_path" members
    kind := ← Json.required? (word ChangeKind.ofWord?) "kind" members
    style := ← Json.default? (word GuardStyle.ofWord?) "style" .block members
    comment := ← Json.default? Json.text? "comment" [] members
    indent := ← Json.default? Json.text? "indent" [] members
    preceding := ← Json.default? (Json.list? Json.text?) "preceding" [] members
    following := ← Json.default? (Json.list? Json.text?) "following" [] members
    body := ← Json.default? (Json.list? Json.text?) "body" [] members
    stock := ← Json.default? (Json.list? Json.text?) "stock" [] members
    blankStock := ← Json.default? (Json.list? Json.whole?) "blank_stock" [] members
    replacementStyle := ← Json.default? (fun v => match v with
      | .null => some none
      | v => (word GuardStyle.ofWord? v).map some) "replacement_style" none members
    replacementComment := ← Json.default? Json.text? "replacement_comment" [] members
    replacementIndent := ← Json.default? Json.text? "replacement_indent" [] members
    anchor := ← Json.default? Json.whole? "anchor" 0 members
    order := ← Json.default? Json.whole? "order" 0 members }

/-- The version that a JSON object describes; `now` stands in for a missing moment of creation. -/
def Version.ofJson? (now : Moment) (value : Json) : Option Version := do
  let members ← value.members?
  if !Json.onlyFields ["order", "created_at", "records"] members then none
  return {
    order := ← Json.required? Json.whole? "order" members
    created := ← Json.default? Moment.ofJson? "created_at" now members
    records := ← Json.default? (Json.list? Record.ofJson?) "records" [] members }

/-- The version that an artifact holds. -/
def Version.ofArtifact (now : Moment) (t : Text) : Except Json.ReadFault Version := do
  Json.orMalformed (Version.ofJson? now (← Json.read t))

end Regraft

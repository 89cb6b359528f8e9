import Regraft.Match.Selection
import Regraft.Record.Artifact
import Regraft.Text.Slug
/-!
# Conflict reports

A conflict report carries what is needed to show why a record found no place: the target text, the lines
the record expects and the place that came closest. Its JSON form is stored under a name made from the
target path.
-/
namespace Regraft

/-- The number of lines that are shown on either side of a conflict. -/
def defaultRadius : Nat := 3

/-- The number of places of the scores in a report. -/
def scorePlaces : Nat := 6

/-- The near miss as a JSON object; an infinite distance is left open. -/
def NearMiss.toJson (n : NearMiss Float) : Json :=
  .record [
    ("position", .int n.position),
    ("score", .float (roundPlaces scorePlaces n.score)),
    ("distance", if n.distance == Json.infinity false then .null else .float n.distance)]

namespace Conflict

/-- The stock lines that the record expects around its place. -/
def expectedLines {α : Type} (c : Conflict α) : List Text :=
  c.record.preceding ++ c.record.stock ++ c.record.following

/-- The lines of the target around the near miss, or around the recorded anchor if there is none. -/
def actualLines {α : Type} (c : Conflict α) (radius : Int) : List Text :=
  let lines := splitLines c.targetText
  let centre : Int := match c.nearMiss with
    | some n => n.position
    | none => min c.record.anchor lines.length
  let start := max (centre - c.record.preceding.length - radius) 0
  let stop := min (centre + c.record.stock.length + c.record.following.length + radius) lines.length
  slice lines start.toNat stop

/-- The report as a JSON object. -/
def toJson (c : Conflict Float) : Json :=
  .record [
    ("target_path", .text c.targetPath),
    ("version", .int c.versionOrder),
    ("required_score", .float (roundPlaces scorePlaces c.requiredScore)),
    ("kind", .text c.record.kind.word),
    ("anchor", .int c.record.anchor),
    ("preceding", .texts c.record.preceding),
    ("body", .texts c.record.body),
    ("stock", .texts c.record.stock),
    ("following", .texts c.record.following),
    ("near_miss", .optional NearMiss.toJson c.nearMiss),
    ("target_text", .text c.targetText)]

/-- How the names of report files are made. -/
def slugStyle : SlugStyle := { fallback := "conflict", small := false }

/-- The name of the report file for a target path. -/
def fileName (targetPath : Text) : Text := slug slugStyle targetPath ++ ".conflict.json"

/-- A value with the members of its objects in the order of their keys, two levels deep. -/
def sorted : Json → Json
  | .object members =>
    .object (Json.sortMembers (members.map fun (k, v) =>
      (k, match v with
        | .object inner => .object (Json.sortMembers inner)
        | v => v)))
  | v => v

/-- The text of the report file. -/
def fileText (c : Conflict Float) : Text :=
  Json.indented Json.quoteAscii 0 (sorted c.toJson) ++ [char '\n']

end Conflict

end Regraft

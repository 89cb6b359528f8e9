import Regraft.Match.Placement
/-!
# Selection

`Matching.select` places every stored version and takes the one with the highest mean score; of equal scores
the newest wins. When no version can be placed, the conflict shows the first record of the newest version
that found no place.
-/
namespace Regraft

/-- The place that came closest to being good enough. -/
structure NearMiss (α : Type) where
  position : Int
  score : α
  distance : α
  deriving Repr

/-- Everything there is to say about a record that found no place. -/
structure Conflict (α : Type) where
  targetPath : Text
  targetText : Text
  record : Record
  versionOrder : Int
  requiredScore : α
  nearMiss : Option (NearMiss α)
  deriving Repr

/-- Why no version was selected. -/
inductive SelectFault (α : Type) where
  | conflict (report : Conflict α)
  /-- There is no version with records. -/
  | noVersions (targetPath : Text)
  /-- A recorded anchor is off the scale of distances. -/
  | offScale
  deriving Repr

section
variable {α : Type} [Scale α]

/-- A candidate as a near miss. -/
def Candidate.nearMiss (c : Candidate α) : NearMiss α := ⟨c.position, c.score, c.distance⟩

/-- A version before another one in the choice: the higher score, then the newer, then the smaller drift. -/
def PlacedVersion.atLeast (a b : PlacedVersion α) : Bool :=
  if Scale.same a.score b.score then
    if a.version.order = b.version.order then ¬ b.distance < a.distance
    else b.version.order < a.version.order
  else b.score < a.score

namespace Matching

variable (m : Matching α)

/-- The versions that can be placed, the newest first. -/
def placeable (lines : List Text) (s : VersionSet) : List (PlacedVersion α) :=
  s.newestFirst.filterMap fun v => (m.place lines v).toOption

/-- The record that found no place, of the newest version that has one. -/
def newestUnplaced? (lines : List Text) (s : VersionSet) : Option (Unplaced α) :=
  s.newestFirst.findSome? fun v =>
    match m.place lines v with
    | .error u => some u
    | .ok _ => none

/-- The best placeable version for the stock lines of a file, whose text a conflict reports. -/
def select (lines : List Text) (s : VersionSet) (targetText : Text) :
    Except (SelectFault α) (PlacedVersion α) :=
  if s.versions.any fun v => m.meetsOffScale lines v.records then .error .offScale
  else match (m.placeable lines s).mergeSort PlacedVersion.atLeast with
  | best :: _ => .ok best
  | [] =>
    match m.newestUnplaced? lines s with
    | some u =>
      .error (.conflict ⟨s.targetPath, targetText, u.record, u.record.order, m.requiredScore,
        u.best.map Candidate.nearMiss⟩)
    | none => .error (.noVersions s.targetPath)

end Matching

end

end Regraft

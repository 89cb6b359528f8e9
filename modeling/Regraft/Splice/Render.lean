import Regraft.Record.Artifact
/-!
# Records as guarded lines

`Record.render` writes a record in its guard comments: the body of an addition, or the commented-out stock
of a deletion with the lines that replace it behind it. A guard that is not a block holds exactly one line.
`Record.renderedSources` tells which of these lines are stock lines, commented out or blank.
-/
namespace Regraft

/-- Why records cannot be spliced into a file. -/
inductive SpliceFault where
  /-- The guard holds exactly one line, but there are so many. -/
  | notOneLine (style : GuardStyle) (count : Nat)
  /-- The place is not in a file of so many lines. -/
  | outside (position : Int) (count : Nat)
  /-- The lines to delete do not stand at the place. -/
  | stockAbsent (position : Nat)
  /-- The fault arose at one of a version's records, counted from 1. -/
  | atSegment (number : Nat) (targetPath : Text) (position : Int) (fault : SpliceFault)
  deriving DecidableEq, Repr

/-- The error in words. -/
def SpliceFault.message : SpliceFault → Text
  | notOneLine style count =>
    style.word ++ " guard must wrap exactly one line, got " ++ showNat count
  | outside position count =>
    "Position " ++ showInt position ++ " outside of file with " ++ showNat count ++ " line(s)"
  | stockAbsent position => "Stock lines for deletion are not present at line " ++ showNat (position + 1)
  | atSegment number targetPath _ fault =>
    "Segment " ++ showNat number ++ " of " ++ targetPath ++ ": " ++ fault.message

/-- The facts of the error. -/
def SpliceFault.details : SpliceFault → List (String × Json)
  | atSegment number _ position _ => [("segment", .int number), ("position", .int position)]
  | _ => []

/-- Lines in the guard comments of a style. -/
def guardLines (tag : Tag) (style : GuardStyle) (indent comment : Text) (lines : List Text) (deletion : Bool) :
    Except SpliceFault (List Text) :=
  match style, lines with
  | .block, lines => .ok (tag.formatBegin indent comment deletion :: lines ++ [tag.formatEnd indent])
  | .singleLine, [line] => .ok [tag.formatTrailing line comment deletion]
  | .nextLine, [line] => .ok [tag.formatMarker indent comment deletion, line]
  | style, lines => .error (.notOneLine style lines.length)

namespace Record

/-- The stock lines as they stand in a guard: commented out, unless they are recorded as blank. -/
def commentedStock (r : Record) : List Text :=
  r.stock.zipIdx.map fun (line, i) => if (i : Int) ∈ r.blankStock then line else commentOut line

/-- The guarded lines of a record. -/
def render (tag : Tag) (r : Record) : Except SpliceFault (List Text) :=
  match r.kind with
  | .addition => guardLines tag r.style r.indent r.comment r.body false
  | .deletion => do
    let deleted ← guardLines tag r.style r.indent r.comment r.commentedStock true
    match r.replacementStyle with
    | none => return deleted
    | some style => return deleted ++ (← guardLines tag style r.replacementIndent r.replacementComment r.body false)

/-- The sources of so many rendered lines: the stock lines keep theirs, the others have none. -/
def renderedSources {σ : Type} (r : Record) (stockSources : List (Option σ)) (count : Nat) :
    List (Option σ) :=
  match r.kind with
  | .addition => List.replicate count none
  | .deletion =>
    let before := if r.style = .singleLine then [] else [none]
    let behind := if r.style = .block then [none] else []
    let known := before ++ stockSources ++ behind
    known ++ List.replicate (count - known.length) none

end Record

end Regraft

import Regraft.Splice.Apply
import Regraft.Match.Selection
import Regraft.Text.Buffer
/-!
# Applying and clearing the content of a file

`clearedContent` is the content of a file without its segments, `appliedContent` the content with the best
matching version in their place. Both keep the line end of every line that stays, and leave the content as
it is, byte for byte, when its lines do not change.
-/
namespace Regraft

/-- Why a content cannot be changed. -/
inductive ContentFault where
  | malformed (fault : MalformedGuard)
  | select (fault : SelectFault Float)
  | splice (fault : SpliceFault)
  | sources (fault : SourceFault)

/-- The content of a buffer with other lines; the content it was read from if the lines are the same. -/
def contentWith (before : Text) (b : Buffer) (new : Sourced Nat) : Except ContentFault Text :=
  if new.lines = b.lines then .ok before
  else match b.withLines new.lines new.sources with
    | .ok changed => .ok changed.render
    | .error fault => .error (.sources fault)

/-- The content without its segments. -/
def clearedContent (tag : Tag) (before : Text) : Except ContentFault Text := do
  let b := Buffer.ofText before
  contentWith before b (← (clearLines tag b.lines).mapError .malformed)

/-- The content with the best matching version applied, and the order of that version. -/
def appliedContent (tag : Tag) (m : Matching Float) (versions : VersionSet) (before : Text) :
    Except ContentFault (Text × Int) := do
  let b := Buffer.ofText before
  let stock ← (clearLines tag b.lines).mapError .malformed
  let target ← (b.withLines stock.lines stock.sources).mapError .sources
  let selected ← (m.select stock.lines versions target.render).mapError .select
  let places := selected.placed.map fun p => ((p.position : Int), p.record)
  let patched ← (applyVersion tag stock places).mapError .splice
  return (← contentWith before b patched, selected.version.order)

end Regraft

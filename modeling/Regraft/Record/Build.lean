import Regraft.Record.Basic
import Regraft.Guard.Stock
/-!
# Records of a file

`buildRecords` turns the segments of a file into records. The context of a record are the stock lines
around its anchor, so it never holds guarded lines, and it ends at the neighbouring segments.
-/
namespace Regraft

/-- The number of context lines that are recorded unless settings say otherwise. -/
def defaultPatchContext : Nat := 50

/-- A window of context lines that would be negative. -/
inductive ContextFault where
  | negative
  deriving DecidableEq, Repr

/-- The error in words. -/
def ContextFault.message : ContextFault → Text
  | negative => "patch_context must be non-negative"

/-- The record of a segment, with its anchor and context. -/
def Segment.record (targetPath : Text) (preceding following : List Text) (anchor : Nat) : Segment → Record
  | .addition g =>
    { targetPath, kind := .addition, style := g.style, comment := g.comment, indent := g.indent,
      preceding, following, body := g.body, anchor }
  | .deletion g stock blanks replacement =>
    { targetPath, kind := .deletion, style := g.style, comment := g.comment, indent := g.indent,
      preceding, following, stock, blankStock := blanks.map Int.ofNat, anchor
      body := (replacement.map Guarded.body).getD []
      replacementStyle := replacement.map Guarded.style
      replacementComment := (replacement.map Guarded.comment).getD []
      replacementIndent := (replacement.map Guarded.indent).getD [] }

/-- The records of segments paired with their anchors; `lower` is where the segment before them ends. -/
def recordsFrom (stock : List Text) (targetPath : Text) (context : Nat) :
    Nat → List (Segment × Nat) → List Record
  | _, [] => []
  | lower, (s, anchor) :: rest =>
    let stop := anchor + s.stock.length
    let upper := match rest with
      | (_, next) :: _ => next
      | [] => stock.length
    let preceding := span stock (max lower (anchor - context)) anchor
    let following := span stock stop (min upper (stop + context))
    s.record targetPath preceding following anchor :: recordsFrom stock targetPath context stop rest

/-- The records of a file's segments, with up to `context` lines on either side. -/
def buildRecords (lines : List Text) (segments : List Segment) (targetPath : Text) (context : Nat) :
    List Record :=
  recordsFrom (stockLines lines segments) targetPath context 0 (segments.zip (anchors segments))

/-- The number of context lines, which must not be negative. -/
def checkContext (context : Int) : Except ContextFault Nat :=
  if context < 0 then .error .negative else .ok context.toNat

end Regraft

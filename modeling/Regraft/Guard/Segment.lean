import Regraft.Guard.Tag
import Regraft.Number.Digits
/-!
# Segments

A segment is a piece of a file that the plugin owns: an addition, or a deletion of stock lines, which
an addition right behind it replaces. `Segment.parse` reads the segments of a file in one pass over
its lines and refuses files whose guard comments do not pair up.
-/
namespace Regraft

/-- Whether a segment adds plugin code or takes out stock code. -/
inductive ChangeKind where
  | addition
  | deletion
  deriving DecidableEq, Repr

/-- The shape of the guard comments around a segment. -/
inductive GuardStyle where
  | block
  | singleLine
  | nextLine
  deriving DecidableEq, Repr

/-- Guarded lines as they stand in a file: where, in which style, with which comment and indent. The
span counts lines from 0, is half open and takes in the guard comments. -/
structure Guarded where
  style : GuardStyle
  start : Nat
  stop : Nat
  body : List Text
  comment : Text
  indent : Text
  deriving DecidableEq, Repr

/-- A piece of a file that the plugin owns. A deletion knows the stock lines that clearing restores,
and which of them are blank and so stand in the guard uncommented. -/
inductive Segment where
  | addition (guarded : Guarded)
  | deletion (guarded : Guarded) (stock : List Text) (blankStock : List Nat) (replacement : Option Guarded)
  deriving DecidableEq, Repr

namespace Segment

/-- The guarded lines; of a replaced deletion, the deleted ones. -/
def guarded : Segment → Guarded
  | addition g => g
  | deletion g _ _ _ => g

/-- Addition or deletion. -/
def kind : Segment → ChangeKind
  | addition _ => .addition
  | deletion .. => .deletion

/-- The first line of the segment. -/
def start (s : Segment) : Nat := s.guarded.start

/-- The line after the segment's last one; a replacement belongs to the segment. -/
def stop : Segment → Nat
  | addition g => g.stop
  | deletion _ _ _ (some r) => r.stop
  | deletion g _ _ none => g.stop

/-- The stock lines that clearing restores. -/
def stock : Segment → List Text
  | addition _ => []
  | deletion _ stock _ _ => stock

/-- Which of the stock lines are blank. -/
def blankStock : Segment → List Nat
  | addition _ => []
  | deletion _ _ blanks _ => blanks

/-- The addition that replaces the deleted lines. -/
def replacement : Segment → Option Guarded
  | addition _ => none
  | deletion _ _ _ r => r

/-- The lines that the plugin contributes. -/
def inserted : Segment → List Text
  | addition g => g.body
  | deletion _ _ _ (some r) => r.body
  | deletion _ _ _ none => []

end Segment

/-! ## Malformed files -/

/-- What is wrong with a guard comment. -/
inductive GuardFault where
  | nestedBegin
  | markerInBlock
  | codeInDeletion
  | notBeforeOneLine
  | endWithoutBegin
  | beginWithoutEnd
  | atEndOfFile
  | nextLineIsCode
  | trailingIsCode
  deriving DecidableEq, Repr

/-- The fault in words. -/
def GuardFault.message : GuardFault → Text
  | nestedBegin => "nested Begin inside an open block"
  | markerInBlock => "guard marker inside an open block"
  | codeInDeletion => "code line before the End of a deletion block"
  | notBeforeOneLine => "next-line guard must precede exactly one code line"
  | endWithoutBegin => "End without a matching Begin"
  | beginWithoutEnd => "Begin without a matching End"
  | atEndOfFile => "next-line guard at end of file"
  | nextLineIsCode => "deletion guard must precede a commented line"
  | trailingIsCode => "deletion guard on a line that is not commented out"

/-- A guard comment that cannot be paired, and the line it stands on, counted from 1. -/
structure MalformedGuard where
  line : Nat
  fault : GuardFault
  deriving DecidableEq, Repr

/-- The error in words. -/
def MalformedGuard.message (e : MalformedGuard) : Text :=
  "Malformed guard at line " ++ showNat e.line ++ ": " ++ e.fault.message

/-! ## Parsing -/

namespace Segment

/-- The stock line behind a line of a deletion block: a blank line stands for itself. -/
def restore (line : Text) : Text :=
  if allBlank line then line else (uncomment? line).getD line

/-- The offsets of the blank lines. -/
def blankOffsets (lines : List Text) : List Nat :=
  (List.range lines.length).filter fun i => (lines[i]?.map allBlank).getD false

/-- The segment of a closed block. -/
def ofBlock (start stop : Nat) (guard : Opening) (body : List Text) : Segment :=
  let guarded := ⟨.block, start, stop, body, guard.comment, guard.indent⟩
  if guard.deletion then deletion guarded (body.map restore) (blankOffsets body) none
  else addition guarded

/-- The segment of a marker, which stands on the line before `index`, and the line it guards. -/
def ofNextLine (index : Nat) (guard : Opening) (line : Text) : Except MalformedGuard Segment :=
  let guarded := ⟨.nextLine, index - 1, index + 1, [line], guard.comment, guard.indent⟩
  if guard.deletion then
    match uncomment? line with
    | some stock => .ok (deletion guarded [stock] [] none)
    | none => .error ⟨index + 1, .nextLineIsCode⟩
  else .ok (addition guarded)

/-- The segment of a line with a trailing guard. -/
def ofTrailing (index : Nat) (guard : Trailing) : Except MalformedGuard Segment :=
  let guarded := ⟨.singleLine, index, index + 1, [guard.code], guard.comment, []⟩
  if guard.deletion then
    match uncomment? guard.code with
    | some stock => .ok (deletion guarded [stock] [] none)
    | none => .error ⟨index + 1, .trailingIsCode⟩
  else .ok (addition guarded)

/-- What the lines read so far are waiting for: nothing, the End of a block (with the block's lines,
the newest first), or the line that a marker guards. -/
inductive Pending where
  | nothing
  | block (start : Nat) (guard : Opening) (body : List Text)
  | line (guard : Opening)
  deriving DecidableEq, Repr

/-- The segments of the lines from `index` on, one for each guard. -/
def scan (tag : Tag) : Nat → Pending → List Text → Except MalformedGuard (List Segment)
  | _, .nothing, [] => .ok []
  | _, .block start _ _, [] => .error ⟨start + 1, .beginWithoutEnd⟩
  | index, .line _, [] => .error ⟨index, .atEndOfFile⟩
  | index, .nothing, line :: rest =>
    match tag.classify line with
    | .ending => .error ⟨index + 1, .endWithoutBegin⟩
    | .beginning guard => scan tag (index + 1) (.block index guard []) rest
    | .marker guard => scan tag (index + 1) (.line guard) rest
    | .trailing guard => do
      let segment ← ofTrailing index guard
      return segment :: (← scan tag (index + 1) .nothing rest)
    | .plain => scan tag (index + 1) .nothing rest
  | index, .block start guard body, line :: rest =>
    if tag.isEnd line then do
      let segments ← scan tag (index + 1) .nothing rest
      return ofBlock start (index + 1) guard body.reverse :: segments
    else if (tag.begin? line).isSome then .error ⟨index + 1, .nestedBegin⟩
    else if tag.mentions line then .error ⟨index + 1, .markerInBlock⟩
    else if guard.deletion && !allBlank line && (uncomment? line).isNone then
      .error ⟨index + 1, .codeInDeletion⟩
    else scan tag (index + 1) (.block start guard (line :: body)) rest
  | index, .line guard, line :: rest =>
    if allBlank line || tag.mentions line then .error ⟨index, .notBeforeOneLine⟩
    else do
      let segment ← ofNextLine index guard line
      return segment :: (← scan tag (index + 1) .nothing rest)

/-- A deletion takes the addition that starts where it stops as its replacement. -/
def pairReplacements : List Segment → List Segment
  | deletion d stock blanks none :: addition a :: rest =>
    if a.start = d.stop then deletion d stock blanks (some a) :: pairReplacements rest
    else deletion d stock blanks none :: pairReplacements (addition a :: rest)
  | s :: rest => s :: pairReplacements rest
  | [] => []

/-- The segments of a file, in the order of its lines. -/
def parse (tag : Tag) (lines : List Text) : Except MalformedGuard (List Segment) :=
  (scan tag 0 .nothing lines).map pairReplacements

end Segment

end Regraft

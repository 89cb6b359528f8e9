import Regraft.Text.Basic
/-!
# Text buffers

The content of a file as lines, each with the line end it was written with, so that a file that is
read and written again keeps every byte.

* `Buffer.ofText` splits a text at its line feeds; a carriage return before one belongs to the line
  end.
* `Buffer.render` puts lines and line ends together again.
* `Buffer.withLines` gives new lines the line ends of the lines they come from.
-/
namespace Regraft

/-- The two ways to end a line. -/
inductive Newline where
  | lf
  | crlf
  deriving DecidableEq, Repr

/-- The characters of a line end. -/
def Newline.text : Newline → Text
  | .lf => ['\n']
  | .crlf => ['\r', '\n']

/-- A line and the way it ends; only the last line of a file may end with the file. -/
structure Row where
  line : Text
  ending : Option Newline
  deriving DecidableEq, Repr

/-- The characters of a row. -/
def Row.render (row : Row) : Text :=
  row.line ++ match row.ending with
    | some newline => newline.text
    | none => []

/-- A file's lines and the line end that new lines get. -/
structure Buffer where
  rows : List Row := []
  newline : Newline := .lf
  deriving DecidableEq, Repr

/-- Why new lines cannot take over the line ends of old ones. -/
inductive SourceFault where
  /-- There is not exactly one source for each line. -/
  | count (lines sources : Nat)
  /-- A source names no line. -/
  | absent
  deriving DecidableEq, Repr

namespace Buffer

/-- The rows of a text: lines end at line feeds and at the end of the text. -/
def rowsOf : Text → List Row
  | [] => []
  | .char '\n' :: cs => ⟨[], some .lf⟩ :: rowsOf cs
  | .char '\r' :: .char '\n' :: cs => ⟨[], some .crlf⟩ :: rowsOf cs
  | c :: cs =>
    match rowsOf cs with
    | [] => [⟨[c], none⟩]
    | row :: rows => { row with line := c :: row.line } :: rows

/-- The line end that more rows have; a tie goes to the line feed. -/
def prevailing (rows : List Row) : Newline :=
  if rows.countP (·.ending = some .crlf) > rows.countP (·.ending = some .lf) then .crlf else .lf

/-- The buffer of a text. -/
def ofText (t : Text) : Buffer :=
  let rows := rowsOf t
  ⟨rows, prevailing rows⟩

/-- The lines, without their ends. -/
def lines (b : Buffer) : List Text := b.rows.map (·.line)

/-- The line ends. -/
def endings (b : Buffer) : List (Option Newline) := b.rows.map (·.ending)

/-- The file ends with a line end; an empty file counts as if it did. -/
def endsWithNewline (b : Buffer) : Bool :=
  match b.rows.getLast? with
  | some row => row.ending.isSome
  | none => true

/-- The text of a buffer. -/
def render (b : Buffer) : Text := b.rows.flatMap Row.render

/-- The line end of a new line: that of the line it comes from, else the prevailing one. -/
def endingOf? (b : Buffer) : Option Nat → Option Newline
  | none => some b.newline
  | some i => b.rows[i]?.map fun row => row.ending.getD b.newline

/-- The last row loses its end if the file it goes to has none. -/
def closeLast (keep : Bool) : List Row → List Row
  | [] => []
  | [row] => [if keep then row else { row with ending := none }]
  | row :: rows => row :: closeLast keep rows

/-- A buffer of new lines in this buffer's format. Each source names the old line whose end the new
line takes over; lines without a source get the prevailing end. -/
def withLines (b : Buffer) (lines : List Text) (sources : List (Option Nat)) :
    Except SourceFault Buffer :=
  if sources.length ≠ lines.length then .error (.count lines.length sources.length)
  else match sources.mapM b.endingOf? with
    | none => .error .absent
    | some ends =>
      .ok ⟨closeLast b.endsWithNewline (lines.zipWith (fun line e => ⟨line, some e⟩) ends), b.newline⟩

end Buffer

end Regraft

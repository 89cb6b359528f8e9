import Regraft.Text.Basic
/-!
# Commented lines

A stock line is taken out of the code by turning it into a line comment behind its indent, and put
back by taking the comment mark away. `uncomment?` undoes `commentOut`; it also reads comments that
were written by hand, with or without the blank after the mark.
-/
namespace Regraft

/-- The blanks at the start of a line. -/
def leadingIndent (line : Text) : Text := line.takeWhile isBlank

/-- A line without the blanks at its start. -/
def afterIndent (line : Text) : Text := line.dropWhile isBlank

/-- A line as a comment behind the same indent. -/
def commentOut (line : Text) : Text :=
  match afterIndent line with
  | [] => leadingIndent line ++ [char '/', char '/']
  | rest => leadingIndent line ++ char '/' :: char '/' :: char ' ' :: rest

/-- At most one blank is dropped after the comment mark. -/
def dropSpace : Text → Text
  | .char ' ' :: rest => rest
  | rest => rest

/-- The line behind a comment mark, with the indent kept; nothing for a line of code. -/
def uncomment? (line : Text) : Option Text :=
  match afterIndent line with
  | .char '/' :: .char '/' :: rest => (untilBreak? (dropSpace rest)).map (leadingIndent line ++ ·)
  | _ => none

end Regraft

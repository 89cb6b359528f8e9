import Regraft.Text.Basic
/-!
# Control sequences of terminals

A control sequence is an escape character, an opening bracket, digits and the marks between them, and one letter.
`dropControls` takes the sequences out of a text and keeps everything else.
-/
namespace Regraft

/-- A character between the bracket and the letter of a control sequence. -/
def isControlMark (c : CodePoint) : Bool := c.isDigit || c == ';' || c == '?'

/-- The number of characters of the control sequence that a text starts with; 0 if it starts with none. -/
def controlLength : Text → Nat
  | .char '\x1b' :: .char '[' :: rest =>
    let marks := rest.takeWhile isControlMark
    match rest.drop marks.length with
    | c :: _ => if c.isAlpha then marks.length + 3 else 0
    | [] => 0
  | _ => 0

/-- A text from behind its first characters, without the control sequences in it. -/
def dropControlsFrom : (skip : Nat) → Text → Text
  | _, [] => []
  | skip + 1, _ :: cs => dropControlsFrom skip cs
  | 0, c :: cs =>
    match controlLength (c :: cs) with
    | 0 => c :: dropControlsFrom 0 cs
    | n + 1 => dropControlsFrom n cs

/-- A text without the control sequences in it. -/
def dropControls (t : Text) : Text := dropControlsFrom 0 t

end Regraft

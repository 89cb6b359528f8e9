import Regraft.Text.Comment
/-!
# Guard comments

Guard comments delimit the lines that a plugin owns inside a stock file. Each carries the plugin's
tag behind a comment mark, and comes in one of four forms:

    // Tag: Begin            int extra = 0; // Tag            // Tag
    int extra = 0;                                            int extra = 0;
    // Tag: End

A dash right after the tag marks a deletion, whose guarded lines are commented-out stock; a free
comment may follow. The readers (`Tag.begin?`, `Tag.isEnd`, `Tag.marker?`, `Tag.trailing?`) stand next
to the writers (`Tag.formatBegin`, …). `Tag.classify` says which form a line has.
-/
namespace Regraft

/-- A plugin tag: not empty and without blanks at its ends. -/
structure Tag where
  text : Text
  ne_nil : text ≠ []
  strip_eq : strip text = text

/-- The tag written in a text, blanks around it aside. -/
def Tag.ofText? (raw : Text) : Option Tag :=
  if h : strip raw = [] then none else some ⟨strip raw, h, strip_strip raw⟩

/-- What the comment that opens a guard says. -/
structure Opening where
  indent : Text
  deletion : Bool
  comment : Text
  deriving DecidableEq, Repr

/-- A guard at the end of the one line it guards. -/
structure Trailing where
  code : Text
  deletion : Bool
  comment : Text
  deriving DecidableEq, Repr

/-- The form of a line, from the first pattern that fits. -/
inductive LineForm where
  | ending
  | beginning (guard : Opening)
  | marker (guard : Opening)
  | trailing (guard : Trailing)
  | plain
  deriving DecidableEq, Repr

/-- A leading dash, and the rest. -/
def takeDash : Text → Bool × Text
  | .char '-' :: rest => (true, rest)
  | rest => (false, rest)

/-- A colon and a word close a guard comment, with blanks only between and after them. -/
def closesWith (word t : Text) : Bool :=
  match t with
  | .char ':' :: rest =>
    match after? word (rest.dropWhile isBlank) with
    | some tail => allBlank tail
    | none => false
  | _ => false

/-- The shortest comment that `: Begin` follows. -/
def commentBeforeBegin? : Text → Option Text
  | [] => none
  | c :: cs =>
    if closesWith "Begin" (c :: cs) then some []
    else if c = '\n' then none
    else (commentBeforeBegin? cs).map (c :: ·)

namespace Tag

variable (tag : Tag)

/-! ## Reading -/

/-- What follows a comment mark and the whole tag at the start of a text. -/
def head? (t : Text) : Option Text :=
  match t with
  | .char '/' :: .char '/' :: rest =>
    match after? tag.text (rest.dropWhile isBlank) with
    | some (c :: tail) => if isWordChar c then none else some (c :: tail)
    | found => found
  | _ => none

/-- A dash and a free comment up to the end of the line. -/
def note? (t : Text) : Option (Bool × Text) :=
  let (deletion, rest) := takeDash t
  (untilBreak? rest).map (deletion, ·)

/-- The guard comment that opens a block. -/
def begin? (line : Text) : Option Opening :=
  match tag.head? (afterIndent line) with
  | some tail =>
    let (deletion, rest) := takeDash tail
    (commentBeforeBegin? rest).map (⟨leadingIndent line, deletion, ·⟩)
  | none => none

/-- The guard comment that closes a block. -/
def isEnd (line : Text) : Bool :=
  match tag.head? (afterIndent line) with
  | some tail => closesWith "End" ((takeDash tail).2.dropWhile isBlank)
  | none => false

/-- A guard comment alone on its line; it guards the next one. -/
def marker? (line : Text) : Option Opening :=
  match tag.head? (afterIndent line) with
  | some tail => (note? tail).map fun (deletion, comment) => ⟨leadingIndent line, deletion, comment⟩
  | none => none

/-- The guard after some code: blanks and tabs may stand before its comment mark. -/
def trailingGuard? (t : Text) : Option (Bool × Text) :=
  match tag.head? (t.dropWhile fun c => c == ' ' || c == '\t') with
  | some tail => note? tail
  | none => none

/-- A guard comment behind the code it guards: the shortest code that ends with a non-blank and is
followed by one. -/
def trailing? : Text → Option Trailing
  | [] => none
  | c :: cs =>
    let here := if isBlank c then none else tag.trailingGuard? cs
    match here with
    | some (deletion, comment) => some ⟨[c], deletion, comment⟩
    | none =>
      if c = '\n' then none
      else (trailing? cs).map fun g => { g with code := c :: g.code }

/-- The tag stands somewhere behind a comment mark. -/
def mentions : Text → Bool
  | [] => false
  | c :: cs => (tag.head? (c :: cs)).isSome || mentions cs

/-- The form of a line: an End before a Begin before a lone marker before a trailing guard. -/
def classify (line : Text) : LineForm :=
  if tag.isEnd line then .ending
  else match tag.begin? line with
    | some guard => .beginning guard
    | none =>
      match tag.marker? line with
      | some guard => .marker guard
      | none =>
        match tag.trailing? line with
        | some guard => .trailing guard
        | none => .plain

/-! ## Writing -/

/-- The tag behind a comment mark, with the dash of a deletion and a comment. -/
def formatNote (comment : Text) (deletion : Bool) : Text :=
  "// " ++ tag.text ++ (if deletion then [char '-'] else []) ++ comment

/-- The comment that opens a block. -/
def formatBegin (indent comment : Text) (deletion : Bool) : Text :=
  indent ++ tag.formatNote comment deletion ++ ": Begin"

/-- The comment that closes a block. -/
def formatEnd (indent : Text) : Text :=
  indent ++ "// " ++ tag.text ++ ": End"

/-- The comment that guards the next line. -/
def formatMarker (indent comment : Text) (deletion : Bool) : Text :=
  indent ++ tag.formatNote comment deletion

/-- A line of code with its guard behind it. -/
def formatTrailing (code comment : Text) (deletion : Bool) : Text :=
  code ++ [char ' '] ++ tag.formatNote comment deletion

end Tag

end Regraft

import Regraft.Json.Reader
import Regraft.Settings.Node
/-!
# Reading settings files

A settings file holds one value in flow notation: lists in square brackets and mappings in braces, which may
end with a comma, texts in quotes or plain, and comments behind a number sign. A plain text outside of all
brackets may hold them. A file without a value holds nothing. Blanks are spaces and line ends, and no tabs.
-/
namespace Regraft.Flow

open Json (ReadFault orMalformed)

/-- A line end. -/
def isBreak (c : CodePoint) : Bool :=
  c == '\n' || c == '\r' || c == '\x85' || c == '\u2028' || c == '\u2029'

/-- A blank between the parts of a value, or within a text. -/
def isGap (c : CodePoint) : Bool := c == ' ' || c == '\t' || isBreak c

/-- A character that a file may hold. -/
def isAllowed (c : CodePoint) : Bool :=
  let n := c.toNat
  c == '\t' || c == '\n' || c == '\r' || (0x20 ≤ n && n ≤ 0x7E) || n == 0x85 || (0xA0 ≤ n && n ≤ 0xD7FF) ||
    (0xE000 ≤ n && n ≤ 0xFFFD) || 0x10000 ≤ n

/-- The text from the next part of the value on. -/
def skip (inComment : Bool) : Text → Text
  | [] => []
  | c :: cs =>
    if inComment then skip (!isBreak c) cs
    else if c = ' ' ∨ isBreak c then skip false cs
    else if c = '#' then skip true cs
    else c :: cs

/-! ## Texts -/

/-- A gap within a text: blanks stay if they end no line; a single line end becomes a blank, and of several
ones all but the first stay. -/
def foldGap (gap : Text) : Text :=
  if !gap.any isBreak then gap
  else
    let breaks : Text := (universalNewlines gap).filterMap fun (c : CodePoint) =>
      if c == '\x85' then some '\n' else if isBreak c then some c else none
    match breaks with
    | [.char '\n'] => [' ']
    | .char '\n' :: more => more
    | breaks => breaks

/-- A gap is followed by a mark that ends a document, which stands alone at the start of a line. -/
def endsDocument (gap rest : Text) : Bool :=
  gap.getLast?.any isBreak && (startsWith "---" rest || startsWith "..." rest) && (rest.drop 3).head?.all isGap

/-- A text from behind its double quote; `fuel` bounds its length. -/
def readDouble : (fuel : Nat) → Text → Option (Text × Text)
  | 0, _ => none
  | fuel + 1, t =>
    match t with
    | [] => none
    | .char '"' :: rest => some ([], rest)
    | .char '\\' :: rest => do
      let (part, rest) ← Json.takeEscape? rest
      (readDouble fuel rest).map fun (more, rest) => (part :: more, rest)
    | c :: cs =>
      if isGap c then
        let gap := t.takeWhile isGap
        let rest := t.drop gap.length
        if endsDocument gap rest then none
        else (readDouble fuel rest).map fun (more, rest) => (foldGap gap ++ more, rest)
      else (readDouble fuel cs).map fun (more, rest) => (c :: more, rest)

/-- A text from behind its single quote, in which two single quotes stand for one. -/
def readSingle : (fuel : Nat) → Text → Option (Text × Text)
  | 0, _ => none
  | fuel + 1, t =>
    match t with
    | [] => none
    | .char '\'' :: .char '\'' :: rest => (readSingle fuel rest).map fun (more, rest) => ('\'' :: more, rest)
    | .char '\'' :: rest => some ([], rest)
    | c :: cs =>
      if isGap c then
        let gap := t.takeWhile isGap
        let rest := t.drop gap.length
        if endsDocument gap rest then none
        else (readSingle fuel rest).map fun (more, rest) => (foldGap gap ++ more, rest)
      else (readSingle fuel cs).map fun (more, rest) => (c :: more, rest)

/-- The characters that mean something in a list or mapping. -/
def isMark (c : CodePoint) : Bool := c == ',' || c == '?' || c == '[' || c == ']' || c == '\x7b' || c == '\x7d'

/-- The characters that no plain text starts with. -/
def isIndicator (c : CodePoint) : Bool :=
  isMark c || isGap c || c.isIn fun c => c ∈ ['-', ':', '#', '&', '*', '!', '|', '>', '\'', '"', '%', '@', '\x60']

/-- A colon that ends a plain key. -/
def endsKey (inside : Bool) : Text → Bool
  | [.char ':'] => true
  | .char ':' :: c :: _ => isGap c || inside && isMark c && c != '?'
  | _ => false

/-- A word of a plain text: everything up to a gap or something that means more. -/
def takeWord (inside : Bool) : Text → Text × Text
  | [] => ([], [])
  | c :: cs =>
    if isGap c || inside && isMark c || endsKey inside (c :: cs) then ([], c :: cs)
    else let (word, rest) := takeWord inside cs; (c :: word, rest)

/-- The words of a plain text, with what their gaps come to between them. -/
def takePlain (inside : Bool) : (fuel : Nat) → Text → Text × Text
  | 0, t => ([], t)
  | fuel + 1, t =>
    let (word, rest) := takeWord inside t
    let gap := rest.takeWhile fun (c : CodePoint) => c == ' ' || isBreak c
    let after := rest.drop gap.length
    if gap.isEmpty || endsDocument gap after || after.head? = some '#' || (takeWord inside after).1.isEmpty then
      (word, rest)
    else let (more, rest) := takePlain inside fuel after; (word ++ foldGap gap ++ more, rest)

/-- A plain text can start here: in front of a character that is no blank, some marks are letters. -/
def startsPlain (inside : Bool) : Text → Bool
  | [] => false
  | c :: rest =>
    !isIndicator c || (rest.head?.any (!isGap ·) && (c == '-' || !inside && (c == '?' || c == ':')))

/-- A plain text at the start of a text, inside of brackets or outside of all. -/
def readPlain? (inside : Bool) (t : Text) : Option (Text × Text) :=
  if startsPlain inside t then some (takePlain inside t.length t) else none

/-! ## Values -/

/-- The longest key, with the blanks behind it. -/
def longestKey : Nat := 1024

/-- What follows the colon behind a key that started at `start`; the colon is on the line of the key. -/
def afterColon? (start rest : Text) : Option Text :=
  match skip false rest with
  | .char ':' :: more =>
    let taken := start.take (start.length - more.length - 1)
    if taken.length ≤ longestKey && !taken.any isBreak then some more else none
  | _ => none

/-- A text in quotes or a plain one. -/
def readScalar? (inside : Bool) (t : Text) : Option (Node × Text) :=
  match t with
  | .char '"' :: rest => (readDouble (t.length + 1) rest).map fun (s, rest) => (.quoted s, rest)
  | .char '\'' :: rest => (readSingle (t.length + 1) rest).map fun (s, rest) => (.quoted s, rest)
  | _ => (readPlain? inside t).map fun (s, rest) => (.plain s, rest)

/-- How deep lists and mappings may stand in each other. -/
def deepest : Nat := 490

mutual

/-- A value inside of brackets or outside of all, and the rest. `depth` is how deep lists and mappings may still
go, and `fuel` bounds the number of parts. -/
def readNode (inside : Bool) : (fuel depth : Nat) → Text → Except ReadFault (Node × Text)
  | 0, _, _ => .error .malformed
  | fuel + 1, depth, t =>
    match t, depth with
    | .char '[' :: _, 0 | .char '\x7b' :: _, 0 => .error .tooDeep
    | .char '[' :: rest, depth + 1 =>
      (readItems fuel depth (skip false rest)).map fun (items, rest) => (.list items, rest)
    | .char '\x7b' :: rest, depth + 1 =>
      (readMembers fuel depth (skip false rest)).map fun (members, rest) => (.mapping members, rest)
    | t, _ => orMalformed (readScalar? inside t)

/-- The items of a list, and what follows its bracket. -/
def readItems : (fuel depth : Nat) → Text → Except ReadFault (List Node × Text)
  | 0, _, _ => .error .malformed
  | fuel + 1, depth, t =>
    match t with
    | .char ']' :: rest => .ok ([], rest)
    | _ => do
      let (item, rest) ← readNode true fuel depth t
      let (item, rest) ← match afterColon? t rest with
        | none => pure (item, rest)
        | some rest => (readMember fuel depth (skip false rest)).map fun (v, rest) => (.mapping [(item, v)], rest)
      match skip false rest with
      | .char ',' :: rest =>
        (readItems fuel depth (skip false rest)).map fun (items, rest) => (item :: items, rest)
      | .char ']' :: rest => return ([item], rest)
      | _ => throw .malformed

/-- The members of a mapping, and what follows its brace. -/
def readMembers : (fuel depth : Nat) → Text → Except ReadFault (List (Node × Node) × Text)
  | 0, _, _ => .error .malformed
  | fuel + 1, depth, t =>
    match t with
    | .char '\x7d' :: rest => .ok ([], rest)
    | _ => do
      let (key, rest) ← orMalformed (readScalar? true t)
      let (item, rest) ← match afterColon? t rest with
        | none => pure (.plain [], rest)
        | some rest => readMember fuel depth (skip false rest)
      match skip false rest with
      | .char ',' :: rest =>
        (readMembers fuel depth (skip false rest)).map fun (members, rest) => ((key, item) :: members, rest)
      | .char '\x7d' :: rest => return ([(key, item)], rest)
      | _ => throw .malformed

/-- The value behind the colon of a key, which may be missing. -/
def readMember : (fuel depth : Nat) → Text → Except ReadFault (Node × Text)
  | 0, _, _ => .error .malformed
  | fuel + 1, depth, t =>
    match t with
    | .char ',' :: _ | .char ']' :: _ | .char '\x7d' :: _ => .ok (.plain [], t)
    | _ => readNode true fuel depth t

end

/-- The value that a file holds. -/
def read (t : Text) : Except ReadFault Node :=
  let t := match t with
    | .char '\uFEFF' :: rest => rest
    | _ => t
  if !t.all isAllowed then .error .malformed
  else match skip false t with
    | [] => .ok (.plain [])
    | start => do
      let (node, rest) ← readNode false (2 * start.length + 2) deepest start
      if (skip false rest).isEmpty then return node else throw .malformed

/-- A whole number of a file that has too many digits, by their number. -/
def Node.overlong? (node : Node) : Option Nat := Node.firstExcess? (deepest + 2) [node]

end Regraft.Flow

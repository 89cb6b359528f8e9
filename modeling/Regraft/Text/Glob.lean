import Regraft.Text.Basic
/-!
# Name patterns

A pattern describes whole texts. A star stands for any run of characters, a question mark for one
character, and a list in square brackets for one character in the list: characters, ranges `a-z`, and
everything else instead if the list begins with `!`. All other characters stand for themselves, and so does
a bracket that nothing closes.

A list is read in three steps. It is cut at the hyphens that make ranges, the first of which follows a
character of the list and each further one the two ends of a range; ranges that run backwards are
dropped with both their ends; what is left is a sequence of characters in which a hyphen between two cut
pieces stands for the range between its neighbours.
-/
namespace Regraft

/-- A set of characters: those in one of the ranges, or all others. -/
structure CharSet where
  negated : Bool
  ranges : List (CodePoint × CodePoint)

/-- A character is in the set. -/
def CharSet.has (s : CharSet) (c : CodePoint) : Bool :=
  s.ranges.any (fun (low, high) => low.toNat ≤ c.toNat && c.toNat ≤ high.toNat) != s.negated

/-- A piece of a pattern: one character of a set, or any run of characters. -/
inductive GlobPiece where
  | one (set : CharSet)
  | star

/-- A pattern is read from left to right. -/
abbrev Glob := List GlobPiece

namespace Glob

/-! ## Reading a list of characters -/

/-- The list of a bracket that has just been opened, and what follows its end. A closing bracket that comes
first belongs to the list. -/
def listBody? (t : Text) : Option (Text × Text) :=
  let (mark, t) : Text × Text := match t with
    | .char '!' :: rest => (['!'], rest)
    | _ => ([], t)
  let (bracket, t) : Text × Text := match t with
    | .char ']' :: rest => ([']'], rest)
    | _ => ([], t)
  (cut? (· == ']') t).map fun (body, rest) => (mark ++ bracket ++ body, rest)

/-- The pieces between the hyphens that make ranges; `skip` characters precede the first of them. -/
def rangeParts : (fuel skip : Nat) → Text → List Text
  | 0, _, t => [t]
  | fuel + 1, skip, t =>
    match cut? (· == '-') (t.drop skip) with
    | none => [t]
    | some (more, rest) => (t.take skip ++ more) :: rangeParts fuel 2 rest

/-- A hyphen at the end makes no range: it belongs to the piece before it. -/
def keepLastHyphen : List Text → List Text
  | [] => []
  | [part] => [part]
  | [part, []] => [part ++ [char '-']]
  | part :: parts => part :: keepLastHyphen parts

/-- Ranges that run backwards are dropped with their ends, the last of them first. -/
def dropBackward : List Text → List Text
  | [] => []
  | part :: parts =>
    match dropBackward parts with
    | [] => [part]
    | next :: rest =>
      match part.getLast?, next with
      | some low, high :: more =>
        if high.toNat < low.toNat then (part.dropLast ++ more) :: rest else part :: next :: rest
      | _, _ => part :: next :: rest

/-- The ranges of a list of pieces: single characters, and the range over each cut. -/
def rangesOf : List Text → List (CodePoint × CodePoint)
  | [] => []
  | [part] => part.map fun c => (c, c)
  | part :: next :: parts =>
    match part.getLast?, next with
    | some low, high :: more =>
      part.dropLast.map (fun c => (c, c)) ++ (low, high) :: rangesOf (more :: parts)
    | _, _ => part.map (fun c => (c, c)) ++ (char '-', char '-') :: rangesOf (next :: parts)
termination_by parts => parts.length

/-- The set that the list in a bracket describes. -/
def setOf (body : Text) : CharSet :=
  let skip := if body.head? = some '!' then 2 else 1
  match dropBackward (keepLastHyphen (rangeParts body.length skip body)) with
  | (.char '!' :: part) :: parts => ⟨true, rangesOf (part :: parts)⟩
  | parts => ⟨false, rangesOf parts⟩

/-! ## Reading and matching patterns -/

/-- The piece for a character that stands for itself. -/
def exactly (c : CodePoint) : GlobPiece := .one ⟨false, [(c, c)]⟩

/-- The pieces of a pattern, read with as much fuel as it has characters. -/
def read : (fuel : Nat) → Text → Glob
  | 0, _ => []
  | _, [] => []
  | fuel + 1, .char '*' :: rest => .star :: read fuel rest
  | fuel + 1, .char '?' :: rest => .one ⟨true, []⟩ :: read fuel rest
  | fuel + 1, .char '[' :: rest =>
    match listBody? rest with
    | some (body, rest) => .one (setOf body) :: read fuel rest
    | none => exactly '[' :: read fuel rest
  | fuel + 1, c :: rest => exactly c :: read fuel rest

/-- The pattern that a text writes. -/
def ofText (t : Text) : Glob := read t.length t

/-- From the first true flag on, all flags are true. -/
def raise : (seen : Bool) → List Bool → List Bool
  | _, [] => []
  | seen, flag :: flags => (seen || flag) :: raise (seen || flag) flags

/-- Flag `i` says that the pieces so far match the first `i` characters; one more piece changes the flags. -/
def advance (t : Text) (flags : List Bool) : GlobPiece → List Bool
  | .one set => false :: List.zipWith (fun flag c => flag && set.has c) flags t
  | .star => raise false flags

/-- The pattern matches the whole text. -/
def accepts (g : Glob) (t : Text) : Bool :=
  (g.foldl (advance t) (true :: t.map fun _ => false)).getLastD false

end Glob

end Regraft

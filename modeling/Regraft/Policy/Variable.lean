import Regraft.Table
/-!
# Variables

A text refers to a variable by its name in braces behind a dollar sign, `${Name}`; the first closing brace
ends the name. A dollar sign and a brace that nothing closes are plain characters. Expanding puts the value
of the variable, expanded in turn, in place of the reference; chains of references may be sixteen long.
-/
namespace Regraft

/-- A piece of a text: a character, or a reference to a variable. -/
inductive TextPart where
  | char (c : CodePoint)
  | reference (name : Text)
  deriving DecidableEq

/-- The pieces of a text, read with as much fuel as it has characters. -/
def partsFrom : (fuel : Nat) → Text → List TextPart
  | 0, _ => []
  | _, [] => []
  | fuel + 1, .char '$' :: .char '{' :: rest =>
    match cut? (· == '}') rest with
    | some (name, rest) => .reference name :: partsFrom fuel rest
    | none => .char '$' :: partsFrom fuel ('{' :: rest)
  | fuel + 1, c :: rest => .char c :: partsFrom fuel rest

/-- The pieces of a text. -/
def partsOf (t : Text) : List TextPart := partsFrom t.length t

/-- The names that a text refers to, in order. -/
def referencesIn (t : Text) : List Text :=
  (partsOf t).filterMap fun
    | .reference name => some name
    | .char _ => none

/-- Variables and their values. -/
abbrev Variables := Table Text

/-- Why a text cannot be expanded. -/
inductive ExpandFault where
  | undefined (name : Text)
  /-- The chain of references that starts in this text is too long. -/
  | tooDeep (text : Text)
  deriving DecidableEq, Repr

namespace Variables

/-- The longest chain of references. -/
def longestChain : Nat := 16

/-- A text with its references expanded, where `left` says how much longer the chain may get; `whole` is the
text in which it started. -/
def expandFrom (vars : Variables) (whole : Text) : (left : Nat) → Text → Except ExpandFault Text
  | 0, _ => .error (.tooDeep whole)
  | left + 1, t => do
    let pieces ← (partsOf t).mapM fun
      | .char c => pure [c]
      | .reference name =>
        match Table.get? name vars with
        | none => .error (.undefined name)
        | some value => expandFrom vars whole left value
    return pieces.flatten

/-- A text with all its references expanded. -/
def expand (vars : Variables) (t : Text) : Except ExpandFault Text :=
  vars.expandFrom t (longestChain + 1) t

end Variables

end Regraft

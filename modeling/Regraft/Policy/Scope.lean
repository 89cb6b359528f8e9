import Regraft.Policy.Config
/-!
# Scopes and rules

A scope is a path with the rule lines for everything below it. The lines of one key that apply to a path are
folded, outermost scope first, into the rule for that key: a plain line replaces what there is, a line with
`+` appends to it, and once a rule is of the base domain only lines of the base domain change it.
-/
namespace Regraft

/-- The path of a scope or target in the form in which paths are compared: slashes only, none at the ends. -/
def scopePath (raw : Text) : Text :=
  let cleaned := trimWhile (· == '/') (replaceChar '\\' '/' (strip raw))
  if cleaned.isEmpty then [] else (Path.ofText cleaned).toText

/-- The number of names in a path; none in the empty one. -/
def scopeDepth (path : Text) : Nat := if path.isEmpty then 0 else (Path.ofText path).names.length

/-- A path is another one or below it; every path is below the empty one. -/
def isWithin (path outer : Text) : Bool :=
  outer.isEmpty || path == outer || startsWith (outer ++ [char '/']) path

/-- The parts of a path that are not empty, put together. -/
def joinParts (parts : List Text) : Text := joinWith ['/'] (parts.filter fun part => !part.isEmpty)

/-- A path moved from below one path to below another one. -/
def rebase (path old new : Text) : Text :=
  let rest := if old.isEmpty then path else trimWhile (· == '/') (path.drop old.length)
  joinParts [new, rest]

/-- The rule of one key for one path. -/
structure Rule where
  kind : RuleKind
  predicates : List Predicate
  value : Text
  baseDomain : Bool
  /-- The scope of the line that had the last word. -/
  scope : Text
  deriving DecidableEq, Repr

namespace Rule

/-- The rule that a line makes by itself. -/
def ofLine (line : RuleLine) : Rule := ⟨line.kind, line.predicates, line.value, line.baseDomain, line.scope⟩

/-- The rule after one more line. -/
def fold (current : Option Rule) (line : RuleLine) : Option Rule :=
  match current with
  | none => some (ofLine line)
  | some rule =>
    if rule.baseDomain ∧ ¬ line.baseDomain then some rule
    else if line.append then
      some {
        kind := line.kind
        predicates := rule.predicates ++ line.predicates
        value := if line.value.isEmpty then rule.value else line.value
        baseDomain := rule.baseDomain || line.baseDomain
        scope := line.scope }
    else some (ofLine line)

/-- The rule that lines of one key make, if there are any. -/
def ofLines (lines : List RuleLine) : Option Rule := lines.foldl fold none

end Rule

/-- A scope among other ones: it knows the innermost scope around it by its number. -/
structure Scope where
  path : Text
  parent : Option Nat
  lines : List RuleLine
  deriving DecidableEq, Repr

/-- The number of names in the path of a scope. -/
def Scope.depth (s : Scope) : Nat := scopeDepth s.path

end Regraft

import Regraft.Policy.Facts
import Regraft.Policy.Variable
/-!
# Predicates

A rule holds under a list of predicates, written `Kind:operand,operand|Kind`. A `!` in front of an operand
or of a kind negates it. Of the predicates of a list one has to hold, and of the operands of a predicate one
as well, unless a `Conjunctions` directive asks for all: `Root` for the predicates of the list, the name of a
kind for its operands, `Predicates` for the operands of every kind and `All` for everything.

* `parsePredicates`: reading, with the fault of the first predicate that is wrong;
* `evaluatePredicates`: what a list says about given facts.
-/
namespace Regraft

/-- The kinds of predicates. -/
inductive PredicateKind where
  | targetExists
  | isTruthy
  | nameMatches
  | always
  | never
  | conjunctions
  deriving DecidableEq, Repr

namespace PredicateKind

/-- All kinds. -/
def all : List PredicateKind := [targetExists, isTruthy, nameMatches, always, never, conjunctions]

/-- The name of a kind. -/
def word : PredicateKind → Text
  | targetExists => "TargetExists"
  | isTruthy => "IsTruthy"
  | nameMatches => "NameMatches"
  | always => "Always"
  | never => "Never"
  | conjunctions => "Conjunctions"

/-- The kind with a name. -/
def ofWord? (t : Text) : Option PredicateKind := all.find? fun k => k.word = t

/-- A kind that is true or false without operands. -/
def takesNoOperands (k : PredicateKind) : Bool := k = always || k = never

end PredicateKind

/-- A text that a predicate asks about. -/
structure Operand where
  text : Text
  negated : Bool
  deriving DecidableEq, Repr

/-- A predicate with its operands. -/
structure Predicate where
  kind : PredicateKind
  operands : List Operand
  negated : Bool
  deriving DecidableEq, Repr

/-- What is wrong with a written list of predicates. -/
inductive PredicateFault where
  | emptyPredicate (value : Text)
  | unknownKind (name : Text)
  | emptyOperand (predicate : Text)
  | noOperandsTaken (kind : PredicateKind)
  | operandsMissing (kind : PredicateKind)
  | unknownTarget (name : Text)
  deriving DecidableEq, Repr

/-- The fault in words. -/
def PredicateFault.message : PredicateFault → Text
  | emptyPredicate value => "Empty predicate in '" ++ value ++ "'"
  | unknownKind name => "Unknown predicate '" ++ name ++ "'"
  | emptyOperand predicate => "Empty operand in '" ++ predicate ++ "'"
  | noOperandsTaken kind => "Predicate '" ++ kind.word ++ "' takes no operands"
  | operandsMissing kind => "Predicate '" ++ kind.word ++ "' requires at least one operand"
  | unknownTarget name => "Unknown conjunction target '" ++ name ++ "'"

/-- The target of a conjunction over the predicates of a list. -/
def rootTarget : Text := "Root"

/-- The target of a conjunction over the operands of every predicate. -/
def predicatesTarget : Text := "Predicates"

/-- The target of both. -/
def allTarget : Text := "All"

/-- The names that a `Conjunctions` directive may have. -/
def conjunctionNames : List Text :=
  rootTarget :: predicatesTarget :: allTarget ::
    (PredicateKind.all.filter (· ≠ .conjunctions)).map PredicateKind.word

/-! ## Reading -/

/-- A text without the negations in front of it, and whether they negate it: two cancel out. -/
def takeNegations (t : Text) : Text × Bool :=
  let isMark (c : CodePoint) : Bool := c == '!' || isBlank c
  let t := strip t
  (t.dropWhile isMark, (t.takeWhile isMark).count (char '!') % 2 = 1)

/-- The parts of a text before and after the first colon. -/
def cutAtColon (t : Text) : Text × Text := (cut? (· == ':') t).getD (t, [])

/-- Reads one operand. -/
def parseOperand (predicate raw : Text) : Except PredicateFault Operand :=
  match takeNegations raw with
  | ([], _) => .error (.emptyOperand (strip predicate))
  | (text, negated) => .ok ⟨text, negated⟩

/-- The operand may stand in a `Conjunctions` directive: it has a known name, or one that a variable will
make. -/
def Operand.isTarget (o : Operand) : Bool :=
  !o.negated && (occursIn ['$', '\x7b'] o.text || o.text ∈ conjunctionNames)

/-- Checks that a predicate has the operands that its kind needs. -/
def Predicate.check (p : Predicate) : Except PredicateFault Unit := do
  if p.kind.takesNoOperands ∧ p.operands ≠ [] then throw (.noOperandsTaken p.kind)
  if ¬ p.kind.takesNoOperands ∧ p.operands = [] then throw (.operandsMissing p.kind)
  if p.kind = .conjunctions then
    match p.operands.find? fun o => !o.isTarget with
    | some o => throw (.unknownTarget o.text)
    | none => return ()

/-- Reads one predicate of a list. -/
def parsePredicate (value chunk : Text) : Except PredicateFault Predicate := do
  if allBlank chunk then throw (.emptyPredicate value)
  let (head, tail) := cutAtColon chunk
  let (name, negated) := takeNegations head
  match PredicateKind.ofWord? name with
  | none => throw (.unknownKind name)
  | some kind =>
    let operands ← if allBlank tail then pure [] else (fields ',' tail).mapM (parseOperand chunk)
    let p : Predicate := ⟨kind, operands, negated⟩
    p.check
    return p

/-- Reads a list of predicates. -/
def parsePredicates (value : Text) : Except PredicateFault (List Predicate) :=
  (fields '|' value).mapM (parsePredicate value)

/-! ## Evaluating -/

/-- Why predicates have no value: a text cannot be expanded, or the file system refuses to look. -/
inductive EvaluationFault where
  | expand (fault : ExpandFault)
  | file (fault : FileFault)
  deriving DecidableEq, Repr

/-- How the operands are completed before they are used. -/
abbrev Completion := Text → Except ExpandFault Text

/-- Operands that are used as they are written. -/
def Completion.none : Completion := .ok

/-- What one operand says; kinds without operands do not come here. -/
def PredicateKind.asks (k : PredicateKind) (f : Facts) (operand : Text) : Except FileFault Bool :=
  match k with
  | targetExists => f.targetExists operand
  | isTruthy => .ok (f.isTruthy operand)
  | nameMatches => .ok (f.nameMatches operand)
  | always | never | conjunctions => .ok false

/-- Whether a completed operand holds, its negation taken into account. -/
def Operand.evaluate (o : Operand) (k : PredicateKind) (f : Facts) (complete : Completion) :
    Except EvaluationFault Bool := do
  let text ← (complete o.text).mapError .expand
  return (← (k.asks f text).mapError .file) != o.negated

/-- All or one of some values; of none, neither. -/
def combine (conjunctive : Bool) (values : List Bool) : Bool :=
  !values.isEmpty && (if conjunctive then values.all id else values.any id)

/-- Whether a predicate holds; all its operands have to if it is `conjunctive`. -/
def Predicate.evaluate (p : Predicate) (f : Facts) (complete : Completion) (conjunctive : Bool) :
    Except EvaluationFault Bool := do
  let value ← match p.kind with
    | .always => pure true
    | .never => pure false
    | kind => return combine conjunctive (← p.operands.mapM fun o => o.evaluate kind f complete) != p.negated
  return value != p.negated

/-- The predicate is a directive. -/
def Predicate.isDirective (p : Predicate) : Bool := p.kind = .conjunctions

/-- What the directives of a list name. -/
def conjunctionTargets (ps : List Predicate) (complete : Completion) : Except ExpandFault (List Text) :=
  ((ps.filter Predicate.isDirective).flatMap Predicate.operands).mapM fun o => complete o.text

/-- Whether a list of predicates holds: its directives say how they combine, and a list without other
predicates does not hold. -/
def evaluatePredicates (ps : List Predicate) (f : Facts) (complete : Completion) :
    Except EvaluationFault Bool := do
  let targets ← (conjunctionTargets ps complete).mapError .expand
  let everything : Bool := allTarget ∈ targets
  let values ← (ps.filter fun p => !p.isDirective).mapM fun p =>
    p.evaluate f complete (everything || predicatesTarget ∈ targets || p.kind.word ∈ targets)
  return combine (everything || rootTarget ∈ targets) values

end Regraft

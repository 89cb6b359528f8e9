import Regraft.Policy.Scope
/-!
# Rule sets

A rule set is made once from a draft: references to variables nobody declares are reported, the paths of the
scopes are expanded and brought into one form, and the scopes are put in order, those with fewer names first,
each after every scope around it.

* `RuleSet.chain`: the scopes around a path, the outermost first;
* `RuleSet.rule?`: the rule of a key for a path;
* `RuleSet.evaluate`: what the rules say about a path: skip it, or where it goes.
-/
namespace Regraft

/-- Variables and scopes. The first scope is the one for every path. -/
structure RuleSet where
  definitions : Variables
  scopes : List Scope

/-- What the rules say about a path. -/
structure Resolution where
  targetPath : Text
  destination : Text
  skip : Bool := false
  remap : Bool := false
  flatten : Bool := false
  deriving DecidableEq, Repr

/-- Why the rules say nothing about a path. -/
inductive RuleFault where
  | config (fault : ConfigFault)
  | file (fault : FileFault)
  deriving DecidableEq, Repr

/-- A fault of an evaluation is a fault of the rules or of the file system. -/
def EvaluationFault.rule : EvaluationFault → RuleFault
  | expand fault => .config fault.config
  | file fault => .file fault

namespace RuleSet

/-- The rule set of no files. -/
def empty (defines : Table Text) : RuleSet := ⟨Table.ofEntries defines, [⟨[], none, []⟩]⟩

/-! ## Making a rule set -/

/-- The first reference to a variable that has no value. -/
def undeclared? (d : Draft) (defines : Table Text) : Option Reference :=
  d.references.find? fun r => !Table.has r.name d.definitions && !Table.has r.name defines

/-- The lines of scopes under the paths that their written paths come to. -/
def resolveScopes (vars : Variables) (scopes : Table (List RuleLine)) :
    Except ConfigFault (Table (List RuleLine)) :=
  scopes.foldlM (fun resolved (raw, lines) => do
    let path := scopePath (← (vars.expand raw).mapError ExpandFault.config)
    let here := (Table.get? path resolved).getD []
    return Table.put path (here ++ lines.map fun line => { line with scope := path }) resolved) []

/-- One path before another one: fewer names first, then in the order of characters. -/
def pathBefore (a b : Text × List RuleLine) : Bool :=
  if scopeDepth a.1 = scopeDepth b.1 then noLater a.1 b.1 else scopeDepth a.1 < scopeDepth b.1

/-- The number of the innermost of some scopes that is around a path: the longest, of equal ones the
first. -/
def innermost (scopes : List Scope) (path : Text) : Nat :=
  let longer (best : Nat × Nat) (s : Scope × Nat) : Nat × Nat :=
    if !s.1.path.isEmpty && isWithin path s.1.path && best.2 < s.1.path.length then (s.2, s.1.path.length)
    else best
  (scopes.zipIdx.foldl longer (0, 0)).1

/-- The scopes with one more behind them. -/
def addScope (scopes : List Scope) (entry : Text × List RuleLine) : List Scope :=
  scopes ++ [⟨entry.1, if entry.1.isEmpty then none else some (innermost scopes entry.1), entry.2⟩]

/-- The rule set of a draft. -/
def ofDraft (d : Draft) (defines : Table Text) : Except ConfigFault RuleSet := do
  match undeclared? d defines with
  | some r => throw ⟨.undefinedVariable r.name, r.source, some r.line⟩
  | none =>
    let vars := Table.overlay d.definitions defines
    let resolved ← resolveScopes vars d.scopes
    let resolved := if Table.has [] resolved then resolved else Table.put [] [] resolved
    return ⟨vars, (resolved.mergeSort pathBefore).foldl addScope []⟩

/-- The rule set of the text of one file. -/
def ofText (text source : Text) (defines : Table Text) : Except ConfigFault RuleSet := do
  ofDraft (← Draft.readText {} text source) defines

/-! ## Looking rules up -/

/-- The number of the scope for a path: the deepest one around it, of equally deep ones the last. -/
def scopeFor (rules : RuleSet) (path : Text) : Nat :=
  let deeper (best : Nat × Nat) (s : Scope × Nat) : Nat × Nat :=
    if !s.1.path.isEmpty && isWithin path s.1.path && best.2 ≤ s.1.depth then (s.2, s.1.depth) else best
  (rules.scopes.zipIdx.foldl deeper (0, 0)).1

/-- The scope of a number and those around it, the innermost first. A scope stands behind those around it. -/
def outward (scopes : List Scope) (i : Nat) : List Scope :=
  match scopes[i]? with
  | none => []
  | some s =>
    match s.parent with
    | none => [s]
    | some p => if _h : p < i then s :: outward scopes p else [s]
termination_by i

/-- The scopes around a path, the outermost first. -/
def chain (rules : RuleSet) (path : Text) : List Scope :=
  (outward rules.scopes (rules.scopeFor (scopePath path))).reverse

/-- The lines of a key that apply to a path, in the order in which they have their say. -/
def linesFor (rules : RuleSet) (kind : RuleKind) (path : Text) : List RuleLine :=
  ((rules.chain path).flatMap Scope.lines).filter fun line => line.kind = kind

/-- The rule of a key for a path. -/
def rule? (rules : RuleSet) (kind : RuleKind) (path : Text) : Option Rule :=
  Rule.ofLines (rules.linesFor kind path)

/-! ## Evaluating -/

/-- The rule of a key holds for a path. -/
def holds (rules : RuleSet) (kind : RuleKind) (path : Text) (facts : Facts) : Except RuleFault Bool :=
  match rules.rule? kind path with
  | none => .ok false
  | some rule => (evaluatePredicates rule.predicates facts rules.definitions.expand).mapError EvaluationFault.rule

/-- The remapping for a path: the scope it starts from and the path it leads to. -/
def remapping (rules : RuleSet) (path : Text) : Except RuleFault (Text × Text) :=
  match rules.rule? .remapTarget path with
  | none => .error (.config { cause := .noTargetFor path })
  | some rule =>
    if allBlank rule.value then .error (.config { cause := .noTargetFor path })
    else match rules.definitions.expand rule.value with
      | .error fault => .error (.config fault.config)
      | .ok target => .ok (rule.scope, scopePath target)

/-- A path with the directories between a base and its last name left out. -/
def flattenTo (base path : Text) : Text := joinParts [base, (Path.ofText path).name]

/-- Where a path goes that is not skipped. -/
def destination (rules : RuleSet) (path : Text) (remap flatten : Bool) : Except RuleFault Text := do
  let base := if flatten then ((rules.rule? .flattenIf path).map Rule.scope).getD [] else []
  let (moved, base) ← if remap then do
      let (old, new) ← rules.remapping path
      pure (rebase path old new, if isWithin base old then rebase base old new else new)
    else pure (path, base)
  return if flatten then flattenTo base moved else moved

/-- What the rules say about a path. -/
def evaluate (rules : RuleSet) (rawPath : Text) (facts : Facts) : Except RuleFault Resolution := do
  let path := scopePath rawPath
  let facts := facts.forPath path
  if ← rules.holds .skipIf path facts then
    return { targetPath := path, destination := path, skip := true }
  let remap ← rules.holds .remapIf path facts
  let flatten ← rules.holds .flattenIf path facts
  return { targetPath := path, destination := ← rules.destination path remap flatten, remap, flatten }

/-- The paths that evaluations may ask the target tree about. -/
def existenceOperands (rules : RuleSet) : List Text :=
  let predicates := (rules.scopes.flatMap Scope.lines).flatMap RuleLine.predicates
  let operands := (predicates.filter fun p => p.kind = .targetExists).flatMap Predicate.operands
  (operands.filterMap fun o => (rules.definitions.expand o.text).toOption).eraseDups

end RuleSet

end Regraft

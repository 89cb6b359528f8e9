import Regraft.Policy.Predicate
/-!
# Rule files

A rule file has sections. The section `[Variables]` defines variables, `[Global]` holds rules for every path
and `[a/b|c]` rules for the paths below `a/b` and below `c`. A rule line is `Key=Value`; a `+` in front of
the key appends its predicates to those of the rule so far, and a `^` keeps the rule from being changed by
lines without one. Empty lines and lines that start with `;` or `#` say nothing.

Several files are read into one draft, in which every reference to a variable is remembered with the line
that it stands in, so that an unknown one can be reported there.
-/
namespace Regraft

/-- What a rule decides. -/
inductive RuleKind where
  | skipIf
  | remapIf
  | flattenIf
  | remapTarget
  deriving DecidableEq, Repr

namespace RuleKind

/-- All kinds. -/
def all : List RuleKind := [skipIf, remapIf, flattenIf, remapTarget]

/-- The key of a kind. -/
def word : RuleKind → Text
  | skipIf => "SkipIf"
  | remapIf => "RemapIf"
  | flattenIf => "FlattenIf"
  | remapTarget => "RemapTarget"

/-- The kind with a key. -/
def ofWord? (t : Text) : Option RuleKind := all.find? fun k => k.word = t

end RuleKind

/-- A line `Key=Value` of a scope. -/
structure RuleLine where
  kind : RuleKind
  /-- The path below which the line holds, as it is written or as it is resolved. -/
  scope : Text
  predicates : List Predicate
  /-- The target of a remapping; empty for the other kinds. -/
  value : Text
  append : Bool
  /-- Only lines of the base domain change a rule of the base domain. -/
  baseDomain : Bool
  source : Text
  line : Nat
  deriving DecidableEq, Repr

/-- What can be wrong with rules. -/
inductive ConfigCause where
  | unterminatedHeader (line : Text)
  | emptyHeader
  | emptyPath (header : Text)
  | notADirective (line : Text)
  | outsideSection
  | badVariableName (name : Text)
  | unknownKey (key : Text)
  | targetMissing
  /-- The file cannot be read. -/
  | unreadable (fault : FileFault)
  | predicate (fault : PredicateFault)
  | undefinedVariable (name : Text)
  | expansionTooDeep (text : Text)
  | noTargetFor (path : Text)
  deriving DecidableEq, Repr

/-- The cause in words. -/
def ConfigCause.message : ConfigCause → Text
  | unterminatedHeader line => "Unterminated section header '" ++ line ++ "'"
  | emptyHeader => "Empty section header"
  | emptyPath header => "Empty path in section '" ++ header ++ "'"
  | notADirective line => "Expected 'Key=Value', got '" ++ line ++ "'"
  | outsideSection => "Directive outside of any section"
  | badVariableName name => "Invalid variable name '" ++ name ++ "'"
  | unknownKey key => "Unknown rule key '" ++ key ++ "'"
  | targetMissing => "RemapTarget requires a path"
  | unreadable fault => "Unable to read config: " ++ fault.message
  | predicate fault => fault.message
  | undefinedVariable name => "Undefined variable '" ++ name ++ "'"
  | expansionTooDeep text => "Variable expansion too deep (cycle?) in '" ++ text ++ "'"
  | noTargetFor path => "RemapIf holds for '" ++ path ++ "' but no RemapTarget is defined"

/-- Where rules come from when no file is named. -/
def unnamedSource : Text := "<config>"

/-- Something is wrong with rules, in a line of a file if that is known. -/
structure ConfigFault where
  cause : ConfigCause
  source : Text := unnamedSource
  line : Option Nat := none
  deriving DecidableEq, Repr

/-- The fault in words, behind the place where it is. -/
def ConfigFault.message (f : ConfigFault) : Text :=
  let place := match f.line with
    | some n => f.source ++ char ':' :: showNat n
    | none => f.source
  place ++ ": " ++ f.cause.message

/-- A text that cannot be expanded is a fault of the rules. -/
def ExpandFault.config : ExpandFault → ConfigFault
  | undefined name => { cause := .undefinedVariable name }
  | tooDeep text => { cause := .expansionTooDeep text }

/-! ## Reading -/

/-- A reference to a variable and where it stands. -/
structure Reference where
  name : Text
  source : Text
  line : Nat
  deriving DecidableEq, Repr

/-- What has been read: scopes are under the paths as they are written. -/
structure Draft where
  definitions : Variables := []
  scopes : Table (List RuleLine) := []
  references : List Reference := []

/-- The section that a line stands in. -/
inductive Section where
  | outside
  | definitions
  | scopes (prefixes : List Text)
  deriving DecidableEq, Repr

/-- A key with the marks in front of it. -/
structure MarkedKey where
  key : Text
  append : Bool
  baseDomain : Bool

/-- Reads a key with its marks, between which there may be blanks. -/
def MarkedKey.ofText (t : Text) : MarkedKey :=
  let isMark (c : CodePoint) : Bool := c == '+' || c == '^'
  let t := strip t
  let marks := if t.head?.any isMark then t.takeWhile fun c => isMark c || isBlank c else []
  ⟨t.drop marks.length, char '+' ∈ marks, char '^' ∈ marks⟩

namespace Draft

/-- Remembers the references of a text. -/
def refer (d : Draft) (t source : Text) (line : Nat) : Draft :=
  { d with references := d.references ++ (referencesIn t).map fun name => ⟨name, source, line⟩ }

/-- Opens a scope; one that is there already stays as it is. -/
def openScope (d : Draft) (path : Text) : Draft :=
  if Table.has path d.scopes then d else { d with scopes := Table.put path [] d.scopes }

/-- Adds a line to its scope. -/
def addLine (d : Draft) (line : RuleLine) : Draft :=
  let lines := (Table.get? line.scope d.scopes).getD []
  { d with scopes := Table.put line.scope (lines ++ [line]) d.scopes }

/-- The section that a header opens. -/
def readHeader (header : Text) : Except ConfigCause Section := do
  match before? [']'] header with
  | none => throw (.unterminatedHeader header)
  | some inside =>
    let name := strip (inside.drop 1)
    if name.isEmpty then throw .emptyHeader
    if name = "Variables" then return .definitions
    if name = "Global" then return .scopes [[]]
    let paths := (fields '|' name).map strip
    if [] ∈ paths then throw (.emptyPath name)
    return .scopes paths

/-- The rule of a line `Key=Value`, without its scope. -/
def readRule (key value source : Text) (line : Nat) : Except ConfigCause RuleLine := do
  let marked := MarkedKey.ofText key
  match RuleKind.ofWord? marked.key with
  | none => throw (.unknownKey marked.key)
  | some .remapTarget =>
    if value.isEmpty then throw .targetMissing
    return ⟨.remapTarget, [], [], value, marked.append, marked.baseDomain, source, line⟩
  | some kind =>
    let predicates ← (parsePredicates value).mapError .predicate
    return ⟨kind, [], predicates, [], marked.append, marked.baseDomain, source, line⟩

/-- Reads a line that is not empty, no comment and no header. -/
def readDirective (d : Draft) (here : Section) (t source : Text) (line : Nat) : Except ConfigCause Draft := do
  match cut? (· == '=') t, here with
  | none, _ => throw (.notADirective t)
  | some _, .outside => throw .outsideSection
  | some (key, value), .definitions =>
    let value := strip value
    let d := d.refer value source line
    let name := strip key
    if name.isEmpty ∨ referencesIn name ≠ [] then throw (.badVariableName name)
    return { d with definitions := Table.put name value d.definitions }
  | some (key, value), .scopes paths =>
    let value := strip value
    let d := d.refer value source line
    let rule ← readRule key value source line
    return paths.foldl (fun d path => d.addLine { rule with scope := path }) d

/-- Reads one line, which may open another section. -/
def readLine (source : Text) (state : Section × Draft) (number : Nat) (raw : Text) :
    Except ConfigCause (Section × Draft) := do
  let (here, d) := state
  match strip raw with
  | [] => return (here, d)
  | c :: rest =>
    if c = ';' ∨ c = '#' then return (here, d)
    if c = '[' then
      let here ← readHeader (c :: rest)
      match here with
      | .scopes paths => return (here, paths.foldl (fun d path => (d.refer path source number).openScope path) d)
      | _ => return (here, d)
    return (here, ← d.readDirective here (c :: rest) source number)

/-- Reads numbered lines. -/
def readLines (source : Text) : Section × Draft → List (Text × Nat) → Except ConfigFault Draft
  | (_, d), [] => .ok d
  | state, (raw, number) :: rest =>
    match readLine source state number raw with
    | .error cause => .error ⟨cause, source, some number⟩
    | .ok state => readLines source state rest

/-- Reads a file into a draft. -/
def readText (d : Draft) (text source : Text) : Except ConfigFault Draft :=
  readLines source (.outside, d) ((splitLines text).zipIdx 1)

end Draft

end Regraft

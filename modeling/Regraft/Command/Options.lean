import Regraft.Number.Numeral
import Regraft.Settings.Basic
import Regraft.Json.Basic
/-!
# Command-line options

Options come before the command. A long option is written `--name value` or `--name=value`, a short one
`-n value` or `-nvalue`, and short options without a value may share a hyphen. Two hyphens end the options.
-/
namespace Regraft

/-- The options. -/
inductive OptionName where
  | pluginRoot
  | targetRoot
  | tag
  | define
  | included
  | excluded
  | dryRun
  | sandboxRoot
  | jobs
  | patchContext
  | contentTolerance
  | lineTolerance
  | lineSimilarity
  | conflictDir
  | settings
  | verbose
  | help
  deriving DecidableEq, Repr

/-- How an option is written. -/
structure OptionForm where
  name : OptionName
  long : Text
  short : Option CodePoint := none
  takesValue : Bool := true

/-- The forms of the options. -/
def optionForms : List OptionForm := [
  ⟨.pluginRoot, "--plugin-root", some 'p', true⟩,
  ⟨.targetRoot, "--target-root", some 't', true⟩,
  ⟨.tag, "--tag", none, true⟩,
  ⟨.define, "--define", some 'D', true⟩,
  ⟨.included, "--include", some 'i', true⟩,
  ⟨.excluded, "--exclude", some 'e', true⟩,
  ⟨.dryRun, "--dry-run", none, false⟩,
  ⟨.sandboxRoot, "--sandbox-root", none, true⟩,
  ⟨.jobs, "--jobs", some 'j', true⟩,
  ⟨.patchContext, "--patch-context", none, true⟩,
  ⟨.contentTolerance, "--content-tolerance", none, true⟩,
  ⟨.lineTolerance, "--line-tolerance", none, true⟩,
  ⟨.lineSimilarity, "--line-similarity", none, true⟩,
  ⟨.conflictDir, "--conflict-dir", none, true⟩,
  ⟨.settings, "--settings", none, true⟩,
  ⟨.verbose, "--verbose", some 'v', false⟩,
  ⟨.help, "--help", none, false⟩]

/-- Why a command line is refused. -/
inductive UsageFault where
  | noSuchOption (written : Text)
  | valueMissing (option : Text)
  | valueNotTaken (option : Text)
  | notAnInteger (value : Text)
  | notANumber (value : Text)
  | notAPath (value : Text)
  | commandMissing
  | noSuchCommand (written : Text)
  | extraArgument (written : Text)
  | targetRootMissing
  | settings (cause : SettingsCause)
  deriving DecidableEq, Repr

/-- The fault in words. -/
def UsageFault.message : UsageFault → Text
  | noSuchOption written => "No such option: " ++ written
  | valueMissing option => "Option '" ++ option ++ "' requires an argument."
  | valueNotTaken option => "Option '" ++ option ++ "' does not take a value."
  | notAnInteger value => "'" ++ value ++ "' is not a valid integer."
  | notANumber value => "'" ++ value ++ "' is not a valid float."
  | notAPath value => "'" ++ value ++ "' is not a valid path."
  | commandMissing => "Missing command."
  | noSuchCommand written => "No such command '" ++ written ++ "'."
  | extraArgument written => "Got unexpected extra argument (" ++ written ++ ")"
  | targetRootMissing => "An engine root is required."
  | settings cause => cause.message

/-- Options with their values; an option without a value has the empty one. -/
abbrev Given := List (OptionName × Text)

/-- What one argument says: options that are complete, and perhaps one whose value is the next argument. -/
structure Argument where
  given : Given
  open? : Option (OptionName × Text) := none

/-- Reads the short options behind a hyphen. -/
def readShort (forms : List OptionForm) : Text → Except UsageFault Argument
  | [] => .ok ⟨[], none⟩
  | c :: rest =>
    match forms.find? fun f => f.short = some c with
    | none => .error (.noSuchOption ['-', c])
    | some form =>
      if form.takesValue then
        if rest.isEmpty then .ok ⟨[], some (form.name, ['-', c])⟩ else .ok ⟨[(form.name, rest)], none⟩
      else (readShort forms rest).map fun a => { a with given := (form.name, []) :: a.given }

/-- Reads an argument that starts with a hyphen. -/
def readArgument (forms : List OptionForm) (arg : Text) : Except UsageFault Argument :=
  let (long, value) : Text × Option Text := match cut? (· == '=') arg with
    | some (long, value) => (long, some value)
    | none => (arg, none)
  match forms.find? fun f => f.long = long, value with
  | some form, none =>
    if form.takesValue then .ok ⟨[], some (form.name, long)⟩ else .ok ⟨[(form.name, [])], none⟩
  | some form, some value =>
    if form.takesValue then .ok ⟨[(form.name, value)], none⟩ else .error (.valueNotTaken long)
  | none, _ => if startsWith ['-', '-'] arg then .error (.noSuchOption long) else readShort forms (arg.drop 1)

/-- An argument is read as an option. -/
def isOption (arg : Text) : Bool := arg.head? = some '-' && 1 < arg.length

/-- Reads arguments. With `interspersed`, arguments that are no options are gathered; without it the first of
them ends the options. The answer is the options and the other arguments. -/
def readArguments (forms : List OptionForm) (interspersed : Bool) :
    List Text → Except UsageFault (Given × List Text)
  | [] => .ok ([], [])
  | arg :: rest =>
    if arg = [char '-', char '-'] then .ok ([], rest)
    else if isOption arg then
      match readArgument forms arg, rest with
      | .error fault, _ => .error fault
      | .ok ⟨given, none⟩, rest =>
        (readArguments forms interspersed rest).map fun (more, others) => (given ++ more, others)
      | .ok ⟨_, some (_, written)⟩, [] => .error (.valueMissing written)
      | .ok ⟨given, some (name, _)⟩, value :: rest =>
        (readArguments forms interspersed rest).map fun (more, others) => (given ++ (name, value) :: more, others)
    else if interspersed then
      (readArguments forms interspersed rest).map fun (more, others) => (more, arg :: others)
    else .ok ([], arg :: rest)

namespace Given

/-- The last value of an option. -/
def last? (g : Given) (name : OptionName) : Option Text :=
  (g.reverse.find? fun (n, _) => n = name).map Prod.snd

/-- All values of an option. -/
def all (g : Given) (name : OptionName) : List Text :=
  (g.filter fun (n, _) => n = name).map Prod.snd

/-- An option without a value is there. -/
def has (g : Given) (name : OptionName) : Bool := (g.last? name).isSome

/-- The value of an option as a whole number. -/
def integer? (g : Given) (name : OptionName) : Except UsageFault (Option Json) :=
  match g.last? name with
  | none => .ok none
  | some t =>
    match numeral? t with
    | some n => .ok (some (.int n))
    | none => .error (.notAnInteger t)

/-- The value of an option as a number. -/
def number? (g : Given) (name : OptionName) : Except UsageFault (Option Json) :=
  match g.last? name with
  | none => .ok none
  | some t =>
    match decimal? t with
    | some x => .ok (some (.float x))
    | none => .error (.notANumber t)

/-- The value of an option as a path, which cannot hold the character that ends texts for the system. -/
def path? (g : Given) (name : OptionName) : Except UsageFault (Option Path) :=
  match g.last? name with
  | none => .ok none
  | some t => if t.contains '\x00' then .error (.notAPath t) else .ok (some (Path.ofText t))

end Given

/-- A section of settings from those of its members that are there. -/
def sectionFrom (members : List (String × Option Json)) : Json :=
  .object (members.filterMap fun (key, value) => value.map fun v => (key, v))

/-- A list of texts that is there if it has members. -/
def textsFrom (ts : List Text) : Option Json := if ts.isEmpty then none else some (.texts ts)

/-- What the options say about the settings, apart from the variables. -/
def Given.sections (g : Given) : Except UsageFault (List (String × Json)) := do
  let path (name : OptionName) : Except UsageFault (Option Json) :=
    (g.path? name).map fun p => p.map fun p => .text p.toText
  return [
    ("plugin", sectionFrom [("tag", (g.last? .tag).map .text)]),
    ("matching", sectionFrom [
      ("patch_context", ← g.integer? .patchContext),
      ("content_tolerance", ← g.number? .contentTolerance),
      ("line_tolerance", ← g.number? .lineTolerance),
      ("line_similarity", (g.last? .lineSimilarity).map .text)]),
    ("scan", sectionFrom [
      ("include", textsFrom (g.all .included)),
      ("exclude", textsFrom (g.all .excluded))]),
    ("run", sectionFrom [
      ("jobs", ← g.integer? .jobs),
      ("dry_run", if g.has .dryRun then some (.bool true) else none),
      ("sandbox_root", ← path .sandboxRoot),
      ("conflict_dir", ← path .conflictDir)])]

/-- The settings of a command line: its sections that say something. -/
def overridesOf (sections : List (String × Json)) (defines : Table Text) : Table Json :=
  let defines : String × Json := ("defines", .object (defines.map fun (name, value) => (name, .text value)))
  ((sections ++ [defines]).filter fun (_, v) => !v.isEmptyLike).map fun (name, v) => (Text.ofString name, v)

end Regraft

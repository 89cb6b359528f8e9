import Regraft.Settings.Basic
import Regraft.Settings.Shown
import Regraft.Settings.Reader
import Regraft.Number.Reading
import Regraft.Files.Script
import Regraft.Record.Build
/-!
# Making settings

Settings come in three layers, each written over the one before: the template, the settings file and the
command line. Mappings are merged member by member; every other value replaces what there is. What the layers
come to is read into `Settings`, section by section, and checked.
-/
namespace Regraft

/-! ## Layers -/

/-- The directory of the versions below the plugin. -/
def defaultPatchDir : Text := "SourcePatch"

/-- The settings that hold when nothing else is said. -/
def settingsTemplate : Json :=
  .record [
    ("plugin", .record [("tag", .lit ""), ("patch_dir", .text defaultPatchDir)]),
    ("matching", .record [
      ("patch_context", .int defaultPatchContext),
      ("content_tolerance", .float (Binary64.ofDecimal false 5 (-1))),
      ("line_tolerance", .null),
      ("line_similarity", .lit "exact")]),
    ("scan", .record [
      ("extensions", .array ([".h", ".hpp", ".inl", ".c", ".cc", ".cpp", ".cs"].map Json.lit)),
      ("include", .array []),
      ("exclude", .array [])]),
    ("run", .record [("jobs", .int 0)]),
    ("defines", .object [])]

mutual

/-- A value written over another one. -/
def mergeValue (base : Option Json) : Json → Json
  | .object later =>
    match base with
    | some (.object members) => .object (mergeMembers members later)
    | _ => .object later
  | value => value

/-- Members written over other ones. -/
def mergeMembers (base : Table Json) : List (Text × Json) → Table Json
  | [] => base
  | (key, value) :: rest => mergeMembers (Table.put key (mergeValue (Table.get? key base) value) base) rest

end

/-- The layers written over each other; a section of the command line that is nothing does not count. -/
def mergeLayers (file overrides : Table Json) : Table Json :=
  let template := (settingsTemplate.members?).getD []
  mergeMembers (mergeMembers template file) (overrides.filter fun (_, value) => !value matches .null)

/-! ## Values -/

/-- A result that only a certain cause can spoil. -/
abbrev Reading := Except SettingsFault

namespace Reading

/-- Stops with a cause. -/
def invalid {α : Type} (cause : SettingsCause) : Reading α := .error (.invalid cause)

/-- The largest magnitude of a whole number is reached before it is a floating-point number. -/
def ofInteger (n : Int) : Reading Float :=
  let x := Binary64.ofDecimal (n < 0) n.natAbs 0
  if (Binary64.ofFloat? x).isSome then .ok x else .error .numberTooLarge

/-- The value as a number. -/
def number (label : Text) (value : Json) : Reading Float :=
  let refuse : Reading Float := invalid (.notANumber label value.shown)
  match value with
  | .bool b => .ok (Binary64.ofDecimal false (if b then 1 else 0) 0)
  | .int n => ofInteger n
  | .float x => .ok x
  | .text t => (readFloat? t).elim refuse .ok
  | _ => refuse

/-- The value as a number; nothing stands for infinity. -/
def limit (label : Text) : Json → Reading Float
  | .null => .ok (Json.infinity false)
  | value => number label value

/-- The value as a whole number. -/
def integer (label : Text) (value : Json) : Reading Int :=
  let refuse : Reading Int := invalid (.notAnInteger label value.shown)
  match value with
  | .int n => .ok n
  | .float x =>
    match Binary64.ofFloat? x with
    | some b => .ok b.whole
    | none => if x == x then .error .numberTooLarge else refuse
  | .text t => (readInt? t).elim refuse .ok
  | _ => refuse

/-- The value as texts: one text, the items of a list or the keys of a mapping. -/
def texts (label : Text) : Json → Reading (List Text)
  | .null => .ok []
  | .text t => .ok [t]
  | .array items => .ok (items.map Json.plainText)
  | .object members => .ok (Table.keys members)
  | _ => invalid (.notTexts label)

/-- The value as a path, if there is one. -/
def path? (value : Json) : Reading (Option Path) :=
  if value.isEmptyLike then .ok none
  else match value with
    | .text t => .ok (some (Path.ofText t))
    | _ => .error .pathNoText

/-- The value as a text; another text stands in for an empty one. -/
def textOr (other : Text) (value : Json) : Text := if value.isEmptyLike then other else value.plainText

/-- The name of a directory, also of one that is written without it. -/
def nameOf (cwd : Location) (p : Path) : Reading Text := ((p.absolute cwd).map Path.name).mapError .file

/-! ## Sections -/

/-- The value of a section; an empty one has no members. -/
def sectionOf (layers : Table Json) (name : String) : Json :=
  let value := (Table.get? (name : Text) layers).getD .null
  if value.isEmptyLike then .object [] else value

/-- A setting in a section; nothing if it is absent. -/
def setting (part : Json) (name : String) : Reading Json :=
  match part with
  | .object members => .ok ((Table.get? (name : Text) members).getD .null)
  | _ => .error .sectionNoMapping

end Reading

/-- An end of names, in small letters and with a point in front. -/
def extensionOf (raw : Text) : Option Text :=
  match lowerCase (strip raw) with
  | [] => none
  | .char '.' :: rest => some ('.' :: rest)
  | entry => some ('.' :: entry)

/-- Settings as they are read, before they are checked. -/
structure SettingsDraft where
  pluginRoot : Path
  targetRoot : Path
  tag : Text
  patchDir : Text
  patchContext : Int
  contentTolerance : Float
  lineTolerance : Float
  similarity : Text
  extensions : List Text
  included : List Text
  excluded : List Text
  defines : Table Text
  jobs : Int
  dryRun : Bool
  sandboxRoot : Option Path
  conflictDir : Option Path

open Reading in
/-- The draft that merged layers describe. -/
def readDraft (cwd : Location) (pluginRoot targetRoot : Path) (layers : Table Json) : Reading SettingsDraft := do
  let plugin := sectionOf layers "plugin"
  let lines := sectionOf layers "matching"
  let scan := sectionOf layers "scan"
  let run := sectionOf layers "run"
  match sectionOf layers "defines" with
  | .object defines =>
    let given := strip (textOr [] (← setting plugin "tag"))
    let tag ← if given.isEmpty then nameOf cwd pluginRoot else pure given
    let extensions ← texts "scan.extensions" (← setting scan "extensions")
    return {
      pluginRoot, targetRoot, tag
      extensions := extensions.filterMap extensionOf
      patchDir := textOr defaultPatchDir (← setting plugin "patch_dir")
      patchContext := ← integer "matching.patch_context" (← setting lines "patch_context")
      contentTolerance := ← number "matching.content_tolerance" (← setting lines "content_tolerance")
      lineTolerance := ← limit "matching.line_tolerance" (← setting lines "line_tolerance")
      similarity := textOr "exact" (← setting lines "line_similarity")
      included := ← texts "scan.include" (← setting scan "include")
      excluded := ← texts "scan.exclude" (← setting scan "exclude")
      defines := Table.ofEntries (defines.map fun (k, v) => (k, v.plainText))
      jobs := ← do
        let jobs ← setting run "jobs"
        if jobs.isEmptyLike then pure 0 else integer "run.jobs" jobs
      dryRun := !(← setting run "dry_run").isEmptyLike
      sandboxRoot := ← path? (← setting run "sandbox_root")
      conflictDir := ← path? (← setting run "conflict_dir") }
  | _ => invalid .definesNoMapping

open Reading in
/-- The settings of a draft, if all values are in their ranges. -/
def SettingsDraft.check (d : SettingsDraft) : Reading Settings := do
  if h : strip d.tag = [] then invalid .tagMissing
  else
    if d.patchContext < 0 then invalid .negativeContext
    if ¬ (0 ≤ d.contentTolerance ∧ d.contentTolerance ≤ 1) then invalid .contentOutOfRange
    if d.lineTolerance < 0 then invalid .negativeLineTolerance
    match SimilarityName.ofWord? d.similarity with
    | none => invalid (.unknownSimilarity d.similarity)
    | some similarity =>
      if d.jobs < 0 then invalid .negativeJobs
      return {
        pluginRoot := d.pluginRoot
        targetRoot := d.targetRoot
        tag := d.tag
        tag_nonblank := h
        patchDir := d.patchDir
        patchContext := d.patchContext.toNat
        contentTolerance := d.contentTolerance
        lineTolerance := d.lineTolerance
        similarity
        extensions := d.extensions
        included := d.included
        excluded := d.excluded
        defines := d.defines
        jobs := d.jobs.toNat
        dryRun := d.dryRun
        sandboxRoot := d.sandboxRoot
        conflictDir := d.conflictDir }

/-- The settings that the layers come to. -/
def buildSettings (cwd : Location) (pluginRoot targetRoot : Path) (file overrides : Table Json) :
    Reading Settings := do
  (← readDraft cwd pluginRoot targetRoot (mergeLayers file overrides)).check

/-! ## Settings files -/

/-- The name of the settings file of a plugin. -/
def settingsFileName : Text := "crysknife.yaml"

/-- The members of a settings file with a content. -/
def settingsOfContent (p : Path) : Content → Reading (Table Json)
  | .bytes _ => .error .undecodable
  | .text chars =>
    match Flow.read (universalNewlines (Text.ofChars chars)) with
    | .error .malformed => Reading.invalid (.fileUnparsable p)
    | .error .tooDeep => .error .tooDeep
    | .ok node =>
      match node.overlong? with
      | some digits => .error (.tooManyDigits digits)
      | none =>
        let value := node.value
        if value.isEmptyLike then .ok []
        else match value.members? with
          | some members => .ok members
          | none => Reading.invalid (.fileNoMapping p)

/-- The members of the settings file: the given one, which has to be there, or that of the plugin. -/
def readSettingsFile (pluginRoot : Path) (given : Option Path) : ExceptT SettingsFault Script (Table Json) := do
  let p := given.getD (pluginRoot.child settingsFileName)
  match ← ExceptT.lift (Script.request (.probe p)) with
  | .error fault => throw (.file fault)
  | .ok none => if given.isSome then throw (.invalid (.fileNotFound p)) else return []
  | .ok (some _) =>
    match ← ExceptT.lift (Script.request (.read p)) with
    | .ok content => ExceptT.mk (pure (settingsOfContent p content))
    | .error fault => throw (.invalid (.fileUnreadable p fault))

/-- The settings of a run. -/
def loadSettings (cwd : Location) (pluginRoot targetRoot : Path) (given : Option Path) (overrides : Table Json) :
    ExceptT SettingsFault Script Settings := do
  let file ← readSettingsFile pluginRoot given
  ExceptT.mk (pure (buildSettings cwd pluginRoot targetRoot file overrides))

end Regraft

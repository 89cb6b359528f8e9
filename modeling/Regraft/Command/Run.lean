import Regraft.Command.Options
import Regraft.Run.Summary
import Regraft.Text.Control
/-!
# Commands

`generate`, `apply` and `clear` run their action over the target tree and tell about every file that was
changed or that something went wrong with; `inspect` lists the stored versions. `runCommand` is the whole
program as a script: from the arguments to what is printed and the exit code.
-/
namespace Regraft

/-- The commands. -/
inductive Command where
  | run (action : Action)
  | inspect
  deriving DecidableEq, Repr

/-- The command of a name. -/
def Command.ofWord? (t : Text) : Option Command :=
  if t = "inspect" then some inspect
  else ([Action.generate, .apply, .clear].find? fun a => a.word = t).map run

/-- What a command line comes to. -/
inductive Response where
  | help (exitCode : Nat)
  | refused (fault : UsageFault)
  | said (exitCode : Nat) (output errors : Text)

/-- A fault that the program does not answer for. -/
inductive Escape where
  | fault (fault : Fault)
  | settings (fault : SettingsFault)
  /-- What was to be printed holds half of a surrogate pair. -/
  | unprintable

/-- A command line that was understood. -/
structure Invocation where
  command : Command
  pluginRoot : Path
  targetRoot : Option Path
  settingsFile : Option Path
  overrides : Table Json
  verbose : Bool

/-! ## Understanding the command line -/

/-- What the arguments behind a command say; a command takes none. -/
def checkArguments (args : List Text) : Option Response :=
  match readArguments (optionForms.filter fun f => f.name = .help) true args with
  | .error fault => some (.refused fault)
  | .ok (given, others) =>
    if given.has .help then some (.help 0)
    else others.head?.map fun arg => .refused (.extraArgument arg)

/-- What an unknown command and the arguments behind it say. They are read once more as options, in case
two hyphens in front of them hid that help is asked for. -/
def checkUnknown (word : Text) (args : List Text) : Response :=
  match readArguments optionForms false (word :: args) with
  | .error fault => .refused fault
  | .ok (given, _) => if given.has .help then .help 0 else .refused (.noSuchCommand word)

/-- What the options and the arguments behind them come to. -/
def Invocation.ofGiven (given : Given) (args : List Text) : Except Response Invocation := do
  if given.has .help then throw (.help 0)
  let sections ← given.sections.mapError .refused
  let pluginRoot ← (given.path? .pluginRoot).mapError .refused
  let targetRoot ← (given.path? .targetRoot).mapError .refused
  let settingsFile ← (given.path? .settings).mapError .refused
  match args with
  | [] => throw (.refused .commandMissing)
  | word :: args =>
    match Command.ofWord? word with
    | none => throw (checkUnknown word args)
    | some command =>
      match parseDefines (given.all .define) with
      | .error cause => throw (.refused (.settings cause))
      | .ok defines =>
        match checkArguments args with
        | some response => throw response
        | none =>
          return {
            command
            pluginRoot := pluginRoot.getD Path.here
            targetRoot
            settingsFile
            overrides := overridesOf sections defines
            verbose := given.has .verbose }

/-- What the arguments of the program come to. -/
def Invocation.ofArguments (args : List Text) : Except Response Invocation :=
  if args.isEmpty then .error (.help 2)
  else match readArguments optionForms false args with
    | .error fault => .error (.refused fault)
    | .ok (given, args) => Invocation.ofGiven given args

/-! ## Telling what happened -/

/-- One line. -/
def asLine (t : Text) : Text := t ++ [char '\n']

/-- What was done with a file that was changed. -/
def Action.done : Action → Text
  | .generate => "Generated"
  | .apply => "Applied"
  | .clear => "Cleared"

/-- A status at the start of a line. -/
def Status.heading : Status → Text
  | .updated => "Updated"
  | .unchanged => "Unchanged"
  | .skipped => "Skipped"
  | .conflict => "Conflict"
  | .failed => "Failed"

/-- The place that came closest, for people. -/
def NearMiss.hint (n : NearMiss Float) : Text :=
  "; best score " ++ showFixed 2 n.score ++ " at line " ++ showInt (n.position + 1)

/-- What an outcome makes the program print: to its output, and about errors. -/
def Outcome.lines (o : Outcome) (verbose : Bool) : Text × Text :=
  match o.status with
  | .updated =>
    let detail : Text := if o.message.isEmpty then [] else " (" ++ o.message ++ ")"
    (asLine (o.action.done ++ char ' ' :: o.targetPath ++ detail), [])
  | .conflict =>
    let hint := ((o.conflict.bind Conflict.nearMiss).map NearMiss.hint).getD []
    let report := (o.reportPath.map fun p => asLine ("  report: " ++ p.toText)).getD []
    ([], asLine ("Conflict: " ++ o.targetPath ++ ": no stored version matches" ++ hint) ++ report)
  | .failed => ([], asLine ("Failed: " ++ o.targetPath ++ ": " ++ o.message))
  | status => (if verbose then asLine (status.heading ++ ": " ++ o.targetPath) else [], [])

/-- What a run makes the program print. -/
def Summary.response (s : Summary) (verbose : Bool) : Response :=
  let told := s.outcomes.map fun o => o.lines verbose
  let failed := if s.failures.isEmpty then [] else asLine (showNat s.failures.length ++ " file(s) failed.")
  let dry := match s.sandboxRoot with
    | none => []
    | some root =>
      if s.written.isEmpty then []
      else asLine ("Dry run: " ++ showNat s.written.length ++ " file(s) written under " ++ root.toText)
  .said s.exitCode (told.flatMap Prod.fst ++ dry) (told.flatMap Prod.snd ++ failed)

/-! ## Running commands -/

/-- A script that may end with a fault the program does not answer for. -/
abbrev Program := ExceptT Escape Script

/-- The response to a fault that stops a whole run. -/
def Fault.response (fault : Fault) : Program Response :=
  match fault with
  | .config f => return .said 2 [] (asLine ("Config error: " ++ f.message))
  | .missing _ _ | .artifact _ | .file (.notFound _) => return .said 2 [] (asLine fault.message)
  | fault => throw (.fault fault)

/-- Runs an action over the target tree. -/
def runAction (cwd : Location) (settings : Settings) (action : Action) (verbose : Bool) : Program Response := do
  let attempt : Attempt Summary := do (← Session.start cwd settings).run action
  match ← ExceptT.lift attempt.run with
  | .ok summary => return summary.response verbose
  | .error fault => fault.response

/-- What there is to tell about a version. -/
def Version.line (v : Version) : Text :=
  asLine ("  v" ++ showInt v.order ++ char ' ' :: v.created.iso ++
    char ' ' :: showNat v.records.length ++ " segment(s)")

/-- Lists the versions of targets behind what has been printed. An artifact that is none ends the list. -/
def listVersions (store : Store) (printed : Text) : List Text → Program Response
  | [] => return .said 0 printed []
  | target :: rest => do
    match ← ExceptT.lift (store.load target).run with
    | .ok versions => listVersions store (printed ++ asLine target ++ versions.versions.flatMap Version.line) rest
    | .error (.artifact p) => return .said 2 printed (asLine (Fault.artifact p).message)
    | .error fault => throw (.fault fault)

/-- Lists the stored versions. -/
def runInspect (cwd : Location) (settings : Settings) : Program Response := do
  let store : Store := ⟨settings.patchRoot, .live cwd⟩
  match ← ExceptT.lift store.targets.run with
  | .error fault => throw (.fault fault)
  | .ok [] => return .said 0 (asLine ("No patches stored under " ++ store.root.toText ++ ".")) []
  | .ok targets => listVersions store [] targets

/-- The target tree of an invocation; only listing does without one. -/
def Invocation.target? (i : Invocation) : Option Path :=
  match i.command with
  | .inspect => some (i.targetRoot.getD Path.here)
  | .run _ => i.targetRoot

/-- Runs what was understood. -/
def Invocation.run (cwd : Location) (i : Invocation) : Program Response := do
  match i.target? with
  | none => return .refused .targetRootMissing
  | some target =>
    match ← ExceptT.lift (loadSettings cwd i.pluginRoot target i.settingsFile i.overrides).run with
    | .error (.invalid cause) => return .refused (.settings cause)
    | .error fault => throw (.settings fault)
    | .ok settings =>
      match i.command with
      | .inspect => runInspect cwd settings
      | .run action => runAction cwd settings action i.verbose

/-- The response as it is printed: without what would steer a terminal. Halves of surrogate pairs are escaped in
what is said about errors, and output with one cannot be printed. -/
def Response.printed? : Response → Option Response
  | .said exitCode output errors =>
    if output.any CodePoint.isHalf then none
    else
      let errors := (dropControls errors).flatMap fun c => if c.isHalf then escapeHidden c else [c]
      some (.said exitCode (dropControls output) errors)
  | response => some response

/-- Runs the program with arguments. -/
def runCommand (cwd : Location) (args : List Text) : Program Response :=
  match Invocation.ofArguments args with
  | .error response => return response
  | .ok invocation => do
    match (← invocation.run cwd).printed? with
    | some response => return response
    | none => throw .unprintable

end Regraft

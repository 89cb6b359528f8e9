import Regraft.Command.Run
import Std.Time.DateTime.Timestamp
/-!
# The program

The outer layer: the operating system answers the requests of the command's script, and the response is
printed.
-/
namespace Regraft.Main

/-- A text for the operating system, which takes no halves of surrogate pairs. -/
def string (t : Text) : String := String.ofList (t.filterMap CodePoint.char?)

/-- A path as the operating system takes it. -/
def native (p : Path) : String := string p.toText

/-- The names in a path of the operating system. -/
def locationOf (s : String) : Location := (Path.ofText s).names

/-- A refusal of the operating system. -/
def refusal (p : Path) (e : IO.Error) : FileFault :=
  match e with
  | .noFileOrDirectory .. => .notFound p.toText
  | .alreadyExists .. => .alreadyExists p.toText
  | .resourceBusy .. => .busy p.toText
  | .permissionDenied .. => .other 13 "Permission denied" p.toText
  | e => .other 5 e.toString p.toText

/-- A path that the operating system would not even look at, or not find room for. -/
def unfit? (p : Path) : Option FileFault :=
  p.unfit?.orElse fun _ =>
    if p.toText.any CodePoint.isHalf then some (.notFound p.toText)
    else if Tree.longestPath < p.toText.bytes.length || p.names.any fun n => Tree.longestName < n.bytes.length then
      some (.nameTooLong p.toText)
    else none

/-- The kind of what is at the end of a path, if anything is. -/
def kindOf (p : Path) : IO (Option EntryKind) := do
  try
    let data ← ((← IO.currentDir) / native p).metadata
    return some (if data.type == .dir then .directory else .file)
  catch _ => return none

/-- Looks at the end of a path. -/
def probe (p : Path) : IO (Except FileFault (Option EntryKind)) := do
  match unfit? p with
  | some (.nameTooLong path) => return .error (.nameTooLong path)
  | some _ => return .ok none
  | none => return .ok (← kindOf p)

/-- The content that bytes are. -/
def contentOf (bytes : ByteArray) : Content :=
  match String.fromUTF8? bytes with
  | some s => .text s.toList
  | none => .bytes bytes.toList

/-- Reads a file. -/
def read (p : Path) : IO (Except FileFault Content) := do
  if let some fault := unfit? p then return .error fault
  if (← kindOf p) = some .directory then return .error (.isADirectory p.toText)
  try return .ok (contentOf (← IO.FS.readBinFile (native p)))
  catch e => return .error (refusal p e)

/-- The names in a directory. -/
def children (p : Path) : IO (List Text) := do
  try
    let entries ← ((← IO.currentDir) / native p).readDir
    return entries.toList.map fun e => Text.ofString e.fileName
  catch _ => return []

/-- Everything below a directory. -/
partial def below (p : Path) : IO (List (List Text × EntryKind)) := do
  let mut found := []
  for name in ← children p do
    match ← kindOf (p.child name) with
    | none => pure ()
    | some .file => found := ([name], .file) :: found
    | some .directory =>
      let inside ← below (p.child name)
      found := ([name], .directory) :: inside.map (fun (names, kind) => (name :: names, kind)) ++ found
  return found

/-- Writes a file beside its place and moves it there. -/
def write (p : Path) (text : Text) : IO (Option FileFault) := do
  if let some fault := unfit? p then return some fault
  try
    IO.FS.createDirAll (native p.parent)
    if p.names = [] ∨ p.name = parentName then return some (.busy p.toText)
    if (← kindOf p) = some .directory then return some (.isADirectory p.toText)
    let n ← IO.rand 0 99999999
    let beside := native (p.parent.child (char '.' :: p.name ++ char '.' :: showPadded 8 n ++ ".tmp"))
    match text.chars? with
    | none => return some (.unencodable p.toText)
    | some chars =>
      IO.FS.writeBinFile beside (String.ofList chars).toUTF8
      IO.FS.rename beside (native p)
      return none
  catch e =>
    if (← kindOf p.parent) = some .file then return some (.alreadyExists p.parent.toText)
    return some (refusal p e)

/-- What the clock shows, in universal time. -/
def now : IO Moment := do
  let t ← Std.Time.Timestamp.now
  return (Moment.ofMicroseconds? (t.toNanosecondsSinceUnixEpoch.val / 1000)).getD ⟨1970, 1, 1, 0, 0, 0, 0, some 0⟩

/-- Makes a directory for a run that changes nothing. -/
def scratch : IO Path := do
  let base := (← IO.getEnv "TMPDIR").getD "/tmp"
  let n ← IO.rand 0 99999999
  let p := (Path.ofText base).child (World.scratchName n)
  IO.FS.createDirAll (native p)
  return p

/-- The operating system answers a request. -/
def answer (verbose : Bool) : (r : Request) → IO r.Answer
  | .probe p => probe p
  | .read p => read p
  | .children p => children p
  | .below p => below p
  | .write p text => write p text
  | .scratch => scratch
  | .now => now
  | .journal line => if verbose then IO.eprintln (string line) else pure ()

/-- Runs a script on the operating system. -/
def perform {α : Type} (verbose : Bool) : Script α → IO α
  | .done a => pure a
  | .ask r go => do perform verbose (go (← answer verbose r))

/-- What the program is for and how it is used. -/
def helpText : String :=
  "Usage: regraft [OPTIONS] COMMAND\n\n" ++
  "Keep plugin modifications to an engine source tree reapplicable across engine upgrades.\n\n" ++
  "Commands:\n" ++
  "  generate  Record guarded segments found in the engine tree as patch versions.\n" ++
  "  apply     Apply the best matching stored version to every in-scope engine file.\n" ++
  "  clear     Remove guarded segments from engine files, restoring stock code.\n" ++
  "  inspect   List stored patch versions per target path.\n"

/-- Prints a response; the answer is the exit code. -/
def print : Response → IO UInt32
  | .help code => do
    IO.print helpText
    return code.toUInt32
  | .refused fault => do
    IO.eprintln (string ("Error: " ++ fault.message))
    return 2
  | .said code output errors => do
    IO.print (string output)
    IO.eprint (string errors)
    return code.toUInt32

end Regraft.Main

open Regraft in
/-- Runs the command line. -/
def main (args : List String) : IO UInt32 := do
  let cwd := Main.locationOf (← IO.currentDir).toString
  let args := args.map Text.ofString
  let verbose := match Invocation.ofArguments args with
    | .ok invocation => invocation.verbose
    | .error _ => false
  match ← Main.perform verbose (runCommand cwd args).run with
  | .ok response => Main.print response
  | .error (.fault fault) => do
    IO.eprintln (Main.string ("Error: " ++ fault.message))
    return 1
  | .error (.settings fault) => do
    IO.eprintln (Main.string ("Error: " ++ fault.message))
    return 1
  | .error .unprintable => do
    IO.eprintln "Error: the output is no text in UTF-8"
    return 1

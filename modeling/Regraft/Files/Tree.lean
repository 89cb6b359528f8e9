import Regraft.Files.Fault
import Regraft.Files.Path
import Regraft.Table
/-!
# File trees

A tree says what is at each location, a location being the names on the way from the root. The root itself
is always a directory. Paths are followed name by name from a directory: every name on the way has to be
one, and a step up is taken where it stands.

* `Tree.locate`: where a path leads;
* `Tree.probe`, `Tree.read`, `Tree.children`, `Tree.below`: what a tree holds;
* `Tree.makeDirs`, `Tree.write`, `Tree.remove`: how it changes.
-/
namespace Regraft

/-- The names on the way from the root. -/
abbrev Location := List Text

/-- What a file holds: a text in UTF-8, or bytes that are none. -/
inductive Content where
  | text (chars : List Char)
  | bytes (b : List UInt8)
  deriving DecidableEq

/-- What is at a location. -/
inductive Entry where
  | file (content : Content)
  | directory
  deriving DecidableEq

/-- The kinds of entries. -/
inductive EntryKind where
  | file
  | directory
  deriving DecidableEq, Repr

/-- The kind of an entry. -/
def Entry.kind : Entry → EntryKind
  | .file _ => .file
  | .directory => .directory

/-- The entries of a file system, each at its location. -/
structure Tree where
  entries : List (Location × Entry) := []

namespace Tree

/-- The longest name, in bytes. -/
def longestName : Nat := 255

/-- The longest path, in bytes. -/
def longestPath : Nat := 4095

/-- What is at a location. -/
def entry? (t : Tree) (here : Location) : Option Entry :=
  if here = [] then some .directory else Table.get? here t.entries

/-- The tree with an entry at a location. -/
def place (t : Tree) (here : Location) (e : Entry) : Tree := ⟨Table.put here e t.entries⟩

/-- The location that names lead to from another one, if every name on the way is a directory. The last
location need not hold anything. -/
def follow (t : Tree) (path : Text) : Location → List Text → Except FileFault Location
  | here, [] => .ok here
  | here, name :: names =>
    match t.entry? here with
    | none => .error (.notFound path)
    | some (.file _) => .error (.notADirectory path)
    | some .directory =>
      if longestName < name.bytes.length then .error (.nameTooLong path)
      else follow t path (if name = parentName then here.dropLast else here ++ [name]) names

/-- Where a path leads for a command that starts at `cwd`. -/
def locate (t : Tree) (cwd : Location) (p : Path) : Except FileFault Location :=
  match p.unfit? with
  | some fault => .error fault
  | none =>
    if longestPath < p.toText.bytes.length then .error (.nameTooLong p.toText)
    else t.follow p.toText (if p.isAbsolute then [] else cwd) p.names

/-! ## Looking -/

/-- The kind of what is at the end of a path, if anything is. Only a path that is too long is a fault. -/
def probe (t : Tree) (cwd : Location) (p : Path) : Except FileFault (Option EntryKind) :=
  match t.locate cwd p with
  | .error (.nameTooLong path) => .error (.nameTooLong path)
  | .error _ => .ok none
  | .ok here => .ok ((t.entry? here).map Entry.kind)

/-- The content of a file. -/
def read (t : Tree) (cwd : Location) (p : Path) : Except FileFault Content := do
  match t.entry? (← t.locate cwd p) with
  | none => throw (.notFound p.toText)
  | some .directory => throw (.isADirectory p.toText)
  | some (.file content) => return content

/-- The names that lead from one location to another one below it. -/
def namesBelow? : (here there : Location) → Option (List Text)
  | [], n :: names => some (n :: names)
  | a :: here, b :: there => if a = b then namesBelow? here there else none
  | _, _ => none

/-- Everything below a path, by the names that lead there. -/
def below (t : Tree) (cwd : Location) (p : Path) : List (List Text × EntryKind) :=
  match t.locate cwd p with
  | .error _ => []
  | .ok here => t.entries.filterMap fun (there, e) => (namesBelow? here there).map fun names => (names, e.kind)

/-- The names in a directory. -/
def children (t : Tree) (cwd : Location) (p : Path) : List Text :=
  (t.below cwd p).filterMap fun (names, _) =>
    match names with
    | [name] => some name
    | _ => none

/-! ## Changing -/

/-- Makes a directory; one that is already there will do. -/
def makeDir (t : Tree) (cwd : Location) (p : Path) : Except FileFault Tree := do
  let here ← t.locate cwd p
  match t.entry? here with
  | some .directory => return t
  | some (.file _) => throw (.alreadyExists p.toText)
  | none => return t.place here .directory

/-- Makes a directory and those on the way to it that are missing. The names come from the last to the
first. What has been made stays when a later step fails. -/
def makeDirsFrom (cwd : Location) (root : PathRoot) : List Text → Tree → Tree × Option FileFault
  | [], t =>
    match t.makeDir cwd ⟨root, []⟩ with
    | .ok t => (t, none)
    | .error fault => (t, some fault)
  | name :: names, t =>
    let p : Path := ⟨root, (name :: names).reverse⟩
    match t.makeDir cwd p with
    | .ok t => (t, none)
    | .error (.notFound _) =>
      match makeDirsFrom cwd root names t with
      | (t, some fault) => (t, some fault)
      | (t, none) =>
        match t.makeDir cwd p with
        | .ok t => (t, none)
        | .error fault => (t, some fault)
    | .error fault => (t, some fault)

/-- Makes a directory and those on the way to it that are missing. -/
def makeDirs (t : Tree) (cwd : Location) (p : Path) : Tree × Option FileFault :=
  makeDirsFrom cwd p.root p.names.reverse t

/-- The bytes by which the name of a file is longer while it is being written. -/
def scratchNameExtra : Nat := 14

/-- A path from the root on, under which a file is while it is being written. -/
def wholePath (cwd : Location) (p : Path) : Path :=
  if p.isAbsolute then ⟨p.root, Path.takeStepsUp p.names⟩ else ⟨.slash, Path.takeStepsUp (cwd ++ p.names)⟩

/-- The longer name of a file, or its path with that name, is too long. -/
def LacksRoom (cwd : Location) (p : Path) : Prop :=
  longestName < p.name.bytes.length + scratchNameExtra ∨
    longestPath < (wholePath cwd p).toText.bytes.length + scratchNameExtra

instance (cwd : Location) (p : Path) : Decidable (LacksRoom cwd p) :=
  inferInstanceAs (Decidable (_ ∨ _))

/-- Puts a text into the file at the end of a path whose directory is there. The text is first written to a
file beside it with a longer name, which then takes its place. A text with half of a surrogate pair cannot be
written. -/
def replaceFile (t : Tree) (cwd : Location) (p : Path) (text : Text) : Except FileFault Tree := do
  let here ← t.locate cwd p
  if LacksRoom cwd p then throw (.nameTooLong p.toText)
  match text.chars? with
  | none => throw (.unencodable p.toText)
  | some chars =>
    if p.names = [] ∨ p.name = parentName then throw (.busy p.toText)
    if t.entry? here = some .directory then throw (.isADirectory p.toText)
    return t.place here (.file (.text chars))

/-- Writes a text to a file, making the directories on the way to it. -/
def write (t : Tree) (cwd : Location) (p : Path) (text : Text) : Tree × Option FileFault :=
  match t.makeDirs cwd p.parent with
  | (t, some fault) => (t, some fault)
  | (t, none) =>
    match t.replaceFile cwd p text with
    | .ok t => (t, none)
    | .error fault => (t, some fault)

/-- The tree without a location and everything below it. -/
def remove (t : Tree) (here : Location) : Tree :=
  ⟨t.entries.filter fun (there, _) => there ≠ here && (namesBelow? here there).isNone⟩

end Tree

end Regraft

import Regraft.Files.Fault
import Regraft.Text.Bytes
/-!
# Paths

A path is a root and the names below it. Reading one drops empty names and the name for "here", but keeps
the name for "up", which only `Path.absolute` resolves. Two slashes at the start, and only two, are a root
of their own. A path may be written with characters that stand in no name of a file; the system is not asked
about it then (`Path.unfit?`).
-/
namespace Regraft

/-- Where a path starts. -/
inductive PathRoot where
  | relative
  | slash
  | doubleSlash
  deriving DecidableEq, Repr

/-- A path: where it starts and the names on the way. -/
structure Path where
  root : PathRoot
  names : List Text
  deriving DecidableEq, Repr

/-- The name of the directory above. -/
def parentName : Text := ['.', '.']

namespace Path

/-- The names between the slashes of a text. -/
def namesOf (t : Text) : List Text :=
  (fields '/' t).filter fun name => !name.isEmpty && name != [char '.']

/-- Where a written path starts. -/
def rootOf : Text → PathRoot
  | [.char '/', .char '/'] => .doubleSlash
  | .char '/' :: .char '/' :: c :: _ => if c = '/' then .slash else .doubleSlash
  | .char '/' :: _ => .slash
  | _ => .relative

/-- The path that a text writes. -/
def ofText (t : Text) : Path := ⟨rootOf t, namesOf t⟩

/-- The path that starts where commands start, without any names. -/
def here : Path := ⟨.relative, []⟩

/-- A relative path of names. -/
def ofNames (names : List Text) : Path := ⟨.relative, names⟩

/-- The path in writing. -/
def toText (p : Path) : Text :=
  let names := joinWith ['/'] p.names
  match p.root with
  | .relative => if names.isEmpty then ['.'] else names
  | .slash => '/' :: names
  | .doubleSlash => '/' :: '/' :: names

/-- The path starts at a root. -/
def isAbsolute (p : Path) : Bool := p.root != .relative

/-- The second path seen from the first one. -/
def join (p q : Path) : Path :=
  if q.isAbsolute then q else ⟨p.root, p.names ++ q.names⟩

/-- The path with one more name. -/
def child (p : Path) (name : Text) : Path := ⟨p.root, p.names ++ [name]⟩

/-- The path without its last name. -/
def parent (p : Path) : Path := ⟨p.root, p.names.dropLast⟩

/-- The last name; empty if there is none. -/
def name (p : Path) : Text := p.names.getLastD []

/-- The last point of a name and what follows it, unless the point is its first or last character. -/
def suffix (p : Path) : Text :=
  let tail := p.name.reverse.takeWhile fun (c : CodePoint) => c != '.'
  if tail.isEmpty || p.name.length ≤ tail.length + 1 then [] else '.' :: tail.reverse

/-- Names with every step up taken. -/
def takeStepsUp (names : List Text) : List Text :=
  names.foldl (fun done name => if name = parentName then done.dropLast else done ++ [name]) []

/-- Why the system cannot even be asked about a path: it has no bytes, or one that ends texts. -/
def unfit? (p : Path) : Option FileFault :=
  if !p.toText.all CodePoint.hasBytes then some (.unencodable p.toText)
  else if p.toText.contains '\x00' then some (.badCharacter p.toText)
  else none

/-- The path from the root, with every step up taken, for a command that starts at `cwd`. -/
def absolute (cwd : List Text) (p : Path) : Except FileFault Path :=
  match p.unfit? with
  | some fault => .error fault
  | none => .ok ⟨.slash, takeStepsUp (if p.isAbsolute then p.names else cwd ++ p.names)⟩

end Path

end Regraft

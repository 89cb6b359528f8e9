import Regraft.Files.Attempt
/-!
# Sandboxes

All writing goes through a sandbox. A sandbox without a root writes in place. One with a root writes to a
copy of the tree below that root, under the whole path of the file, and reads from there first, so that a
dry run sees what it has written and changes nothing else.
-/
namespace Regraft

/-- Where reading looks and writing goes. -/
structure Sandbox where
  root : Option Path
  /-- Where relative paths start. -/
  cwd : Location

namespace Sandbox

/-- A sandbox that writes in place. -/
def live (cwd : Location) : Sandbox := ⟨none, cwd⟩

/-- A sandbox that writes below a directory. -/
def below (cwd : Location) (root : Path) : Except FileFault Sandbox :=
  (root.absolute cwd).map fun root => ⟨some root, cwd⟩

/-- Nothing outside of the root is changed. -/
def isDry (s : Sandbox) : Bool := s.root.isSome

/-- Where a write to a path goes. -/
def resolve (s : Sandbox) (p : Path) : Except FileFault Path :=
  match s.root with
  | none => .ok p
  | some root => (p.absolute s.cwd).map fun p => ⟨root.root, root.names ++ p.names⟩

/-- Where a path is looked for, one place after the other. -/
def searchRoots (s : Sandbox) (p : Path) : Except FileFault (List Path) :=
  match s.root with
  | none => .ok [p]
  | some _ => (s.resolve p).map fun mirrored => [mirrored, p]

/-- There is something in one of some places. -/
def isThereIn : List Path → Attempt Bool
  | [] => return false
  | p :: rest => do
    if ← Attempt.isThere p then return true
    isThereIn rest

/-- There is something at a path. -/
def isThere (s : Sandbox) (p : Path) : Attempt Bool := do
  isThereIn (← Attempt.ofExcept .file (s.searchRoots p))

/-- The text of the first file in some places. -/
def readIn (asked : Path) : List Path → Attempt Text
  | [] => throw (.missing .file asked)
  | p :: rest => do
    if ← Attempt.isFile p then Attempt.readText p else readIn asked rest

/-- The text of a file. -/
def readText (s : Sandbox) (p : Path) : Attempt Text := do
  readIn p (← Attempt.ofExcept .file (s.searchRoots p))

/-- Writes a text to a file; the answer is where it went. -/
def writeText (s : Sandbox) (p : Path) (text : Text) : Attempt Path := do
  let destination ← Attempt.ofExcept .file (s.resolve p)
  Attempt.writeText destination text
  return destination

end Sandbox

end Regraft

import Regraft.Files.Sandbox
/-!
# Changes to files

A change is the content of a file before and after; computing one writes nothing. Committing it writes the
file, if there is something to write, and says so in the journal.
-/
namespace Regraft

/-- What can be done with the files of a target tree. -/
inductive Action where
  | generate
  | apply
  | clear
  deriving DecidableEq, Repr

/-- The word for an action. -/
def Action.word : Action → Text
  | generate => "generate"
  | apply => "apply"
  | clear => "clear"

/-- The content of a file before and after, and the version that was applied. -/
structure Change where
  path : Path
  before : Text
  content : Text
  version : Option Int := none

namespace Change

/-- There is something to write. -/
def changed (c : Change) : Bool := c.content != c.before

/-- The change that applies the best matching version to a file. -/
def ofApply (s : Sandbox) (tag : Tag) (m : Matching Float) (p : Path) (versions : VersionSet) : Attempt Change := do
  let before ← s.readText p
  let (content, version) ← Attempt.ofExcept (.content p) (appliedContent tag m versions before)
  return ⟨p, before, content, some version⟩

/-- The change that takes all segments out of a file. -/
def ofClear (s : Sandbox) (tag : Tag) (p : Path) : Attempt Change := do
  let before ← s.readText p
  return { path := p, before, content := ← Attempt.ofExcept (.content p) (clearedContent tag before) }

/-- What the journal says about a change that was written. -/
def event (c : Change) (action : Action) (destination : Path) (dry : Bool) : Event where
  name := "file." ++ action.word
  fields := [
    ("path", .text c.path.toText),
    ("destination", .text destination.toText),
    ("version", .optional .int c.version),
    ("dry_run", .bool dry)]

/-- Writes a change, if it is one; the answer is where it went. -/
def commit (s : Sandbox) (c : Change) (action : Action) : Attempt (Option Path) := do
  if !c.changed then return none
  let destination ← s.writeText c.path c.content
  Attempt.journal (c.event action destination s.isDry)
  return some destination

/-- Applies the best matching version to a file; the answer is the change and where it was written. -/
def applyFile (s : Sandbox) (tag : Tag) (m : Matching Float) (p : Path) (versions : VersionSet) :
    Attempt (Change × Option Path) := do
  let change ← ofApply s tag m p versions
  return (change, ← change.commit s .apply)

/-- Takes all segments out of a file; the answer is the change and where it was written. -/
def clearFile (s : Sandbox) (tag : Tag) (p : Path) : Attempt (Change × Option Path) := do
  let change ← ofClear s tag p
  return (change, ← change.commit s .clear)

end Change

end Regraft

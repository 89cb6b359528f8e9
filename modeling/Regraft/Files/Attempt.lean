import Regraft.Fault
import Regraft.Files.Script
import Regraft.Record.Moment
import Regraft.Json.Writer
/-!
# Attempts

An attempt is a script that may end with a fault. This module holds the single requests as attempts, and the
lines that attempts write into the journal.
-/
namespace Regraft

/-- A script that may end with a fault. -/
abbrev Attempt := ExceptT Fault Script

namespace Attempt

/-- Asks for one thing. -/
def request (r : Request) : Attempt r.Answer := ExceptT.lift (Script.request r)

/-- Ends with a fault of the file system. -/
def refused {α : Type} (fault : FileFault) : Attempt α := throw (.file fault)

/-- A result, or the end of the attempt. -/
def ofExcept {ε α : Type} (wrap : ε → Fault) : Except ε α → Attempt α
  | .ok a => pure a
  | .error fault => throw (wrap fault)

/-- The kind of what is at the end of a path, if anything is. -/
def probe (p : Path) : Attempt (Option EntryKind) := do
  match ← request (.probe p) with
  | .ok kind => return kind
  | .error fault => refused fault

/-- There is a file at the end of a path. -/
def isFile (p : Path) : Attempt Bool := do return (← probe p) = some .file

/-- There is a directory at the end of a path. -/
def isDirectory (p : Path) : Attempt Bool := do return (← probe p) = some .directory

/-- There is something at the end of a path. -/
def isThere (p : Path) : Attempt Bool := do return (← probe p).isSome

/-- The content of a file. -/
def readContent (p : Path) : Attempt Content := do
  match ← request (.read p) with
  | .ok content => return content
  | .error fault => refused fault

/-- The text of a file. -/
def readText (p : Path) : Attempt Text := do
  match ← readContent p with
  | .text chars => return Text.ofChars chars
  | .bytes _ => throw .undecodable

/-- Writes a text to a file. -/
def writeText (p : Path) (text : Text) : Attempt Unit := do
  match ← request (.write p text) with
  | none => return ()
  | some fault => refused fault

end Attempt

/-! ## The journal -/

/-- Something that happened, with what there is to know about it. -/
structure Event where
  name : Text
  fields : Table Json

/-- An event with given fields, none of which may be called `event`. -/
def Event.ofFields? (name : Text) (fields : Table Json) : Option Event :=
  if Table.has ("event" : Text) fields then none else some ⟨name, fields⟩

/-- The line for an event: its name, the moment and its fields. A field `timestamp` stands in for the
moment. -/
def Event.line (e : Event) (now : Moment) : Text :=
  let head : Table Json := [("event", .text e.name), ("timestamp", .text now.iso)]
  Json.compact Json.quoteAscii (.object (Table.overlay head e.fields))

/-- Writes an event into the journal. -/
def Attempt.journal (e : Event) : Attempt Unit := do
  let now ← Attempt.request .now
  Attempt.request (.journal (e.line now))

end Regraft

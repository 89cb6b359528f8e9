import Regraft.Files.Sandbox
import Regraft.Store.Key
import Regraft.Record.Artifact
/-!
# The store of versions

The artifacts of a store stand below its root in the form of the target tree. All versions of a target are
in one directory.

* `Store.targets`: the targets that have versions;
* `Store.load`: the versions of a target;
* `Store.append`: one more version of a target;
* `Store.generate`: the version of a guarded text, appended unless the store has it.
-/
namespace Regraft

/-- A store and how its files are reached. -/
structure Store where
  root : Path
  sandbox : Sandbox

namespace Store

/-- The target of an artifact, by the names on the way to it. -/
def targetOf? (names : List Text) : Option Text :=
  (names.getLast?.bind artifactTarget?).map fun name =>
    ((Path.ofNames names.dropLast).join (Path.ofText name)).toText

/-- The targets of the artifacts below one of the places where the root is looked for. -/
def targetsBelow (base : Path) : Attempt (List Text) := do
  if ← Attempt.isDirectory base then
    return (← Attempt.request (.below base)).filterMap fun (names, _) => targetOf? names
  else return []

/-- The targets that have versions, in order. -/
def targets (s : Store) : Attempt (List Text) := do
  let found ← (← Attempt.ofExcept .file (s.sandbox.searchRoots s.root)).mapM targetsBelow
  return (found.flatten.mergeSort noLater).eraseDups

/-- The path of the artifact of a version, whose number can be written. -/
def artifactPath (s : Store) (target : Text) (order : Int) : Except KeyFault Path := do
  let key ← keyOf target
  if longestInteger < (showNat order.natAbs).length then throw .orderTooLong
  return s.root.join (Path.ofText (artifactName key order))

/-- The version in an artifact. -/
def readVersion (p : Path) : Attempt Version := do
  let now ← Attempt.request .now
  match ← Attempt.request (.read p) with
  | .ok (.text chars) =>
    match Version.ofArtifact now (Text.ofChars chars) with
    | .ok v => return v
    | .error .malformed => throw (.artifact p)
    | .error .tooDeep => throw (.tooDeep p)
  | _ => throw (.artifact p)

/-- Reads the artifacts of a target in one directory, apart from those whose names have been seen. -/
def readFrom (name : Text) (seen : List Text) (base : Path) : Attempt (List Text × List Version) := do
  if ← Attempt.isDirectory base then
    let children ← Attempt.request (.children base)
    let files := (children.filter fun f => artifactTarget? f = some name && f ∉ seen).mergeSort noLater
    let versions ← files.mapM fun f => readVersion (base.child f)
    return (seen ++ files, versions)
  else return (seen, [])

/-- The versions of a target. -/
def load (s : Store) (target : Text) : Attempt VersionSet := do
  let key ← Attempt.ofExcept .key (keyOf target)
  let file := s.root.join (Path.ofText key)
  let places ← Attempt.ofExcept .file (s.sandbox.searchRoots file.parent)
  let (_, versions) ← places.foldlM (fun (seen, versions) base => do
    let (seen, more) ← readFrom (Path.ofText key).name seen base
    return (seen, versions ++ more)) (([], []) : List Text × List Version)
  return .build key versions

/-- A record as it is stored in a version of a target. -/
def stamp (key : Text) (order : Int) (r : Record) : Record := { r with targetPath := key, order }

/-- A version that has been stored, and the file that it was written to. -/
structure Stored where
  version : Version
  written : Path

/-- Stores records as the newest version of a target. The versions so far and the place of the new one are
looked up by the key as if it were a target, which it is: only of a key with a blank at an end is there
another key. -/
def append (s : Store) (target : Text) (records : List Record) : Attempt Stored := do
  let key ← Attempt.ofExcept .key (keyOf target)
  let order := (← s.load key).nextOrder
  let version : Version := ⟨order, ← Attempt.request .now, records.map (stamp key order)⟩
  let place ← Attempt.ofExcept .key (s.artifactPath key order)
  return ⟨version, ← s.sandbox.writeText place version.artifact⟩

/-- What became of a guarded text: its key, the records that stand for it and the version that was stored, if
there was not one before. -/
structure Generated where
  key : Text
  records : List Record
  stored : Option Stored

/-- Stores the segments of a text as the newest version of its target, unless there are none or a stored
version has the same changes. -/
def generate (s : Store) (tag : Tag) (context : Int) (text target : Text) : Attempt Generated := do
  let key ← Attempt.ofExcept .key (keyOf target)
  let lines := (Buffer.ofText text).lines
  let segments ← Attempt.ofExcept .malformed (Segment.parse tag lines)
  if segments.isEmpty then return ⟨key, [], none⟩
  let context ← Attempt.ofExcept .context (checkContext context)
  let records := buildRecords lines segments key context
  match (← s.load key).findIdentical? records with
  | some version => return ⟨key, version.records, none⟩
  | none =>
    let stored ← s.append key records
    return ⟨key, stored.version.records, some stored⟩

end Store

end Regraft

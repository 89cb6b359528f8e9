import Regraft.Guard.Segment
/-!
# Records

A record is one change as it is stored: the guarded lines and the stock lines around them. A version
holds the records of one file from one run; a version set holds all versions of a file, the oldest first.

* `Record.identity`: the fields that make two records the same change.
* `VersionSet.build`: versions sorted by their order, equal orders as they came.
* `VersionSet.findIdentical?`: the oldest version with exactly these changes.
-/
namespace Regraft

/-- One recorded change. -/
structure Record where
  targetPath : Text
  kind : ChangeKind
  style : GuardStyle := .block
  comment : Text := []
  indent : Text := []
  preceding : List Text := []
  following : List Text := []
  body : List Text := []
  stock : List Text := []
  blankStock : List Int := []
  replacementStyle : Option GuardStyle := none
  replacementComment : Text := []
  replacementIndent : Text := []
  anchor : Int := 0
  order : Int := 0
  deriving DecidableEq, Repr

/-- The fields that make two records the same change. -/
structure Identity where
  kind : ChangeKind
  preceding : List Text
  following : List Text
  body : List Text
  stock : List Text
  deriving DecidableEq, Repr

namespace Record

/-- The identity of a record. -/
def identity (r : Record) : Identity := ⟨r.kind, r.preceding, r.following, r.body, r.stock⟩

/-- The number of context lines. -/
def contextSize (r : Record) : Nat := r.preceding.length + r.following.length

/-- The stock lines that the record takes out of a file. -/
def extent (r : Record) : Nat :=
  match r.kind with
  | .addition => 0
  | .deletion => r.stock.length

end Record

/-- A moment on the calendar, with its distance from universal time in seconds if that is known. -/
structure Moment where
  year : Nat
  month : Nat
  day : Nat
  hour : Nat
  minute : Nat
  second : Nat
  microsecond : Nat := 0
  offset : Option Int := none
  deriving DecidableEq, Repr

/-- The records of one file from one run. -/
structure Version where
  order : Int
  created : Moment
  records : List Record := []
  deriving DecidableEq, Repr

/-- The identities of a version's records, in order. -/
def Version.identities (v : Version) : List Identity := v.records.map Record.identity

/-- The stored versions of a target path, the oldest first. -/
structure VersionSet where
  targetPath : Text
  versions : List Version := []
  deriving DecidableEq, Repr

namespace VersionSet

/-- The version set of versions in any sequence. -/
def build (targetPath : Text) (versions : List Version) : VersionSet :=
  ⟨targetPath, versions.mergeSort fun a b => a.order ≤ b.order⟩

/-- The newest version. -/
def newest? (s : VersionSet) : Option Version := s.versions.getLast?

/-- The versions, the newest first. -/
def newestFirst (s : VersionSet) : List Version := s.versions.reverse

/-- The order of the next version. -/
def nextOrder (s : VersionSet) : Int :=
  match s.newest? with
  | some v => v.order + 1
  | none => 1

/-- The oldest version that carries exactly the changes of these records. -/
def findIdentical? (s : VersionSet) (records : List Record) : Option Version :=
  s.versions.find? fun v => v.identities = records.map Record.identity

end VersionSet

end Regraft

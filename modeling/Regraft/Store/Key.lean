import Regraft.Fault
/-!
# Keys of the store

The versions of a target path are stored under its key: the path from the root of the target tree, with
single slashes and without steps up. The artifact of version 7 of `a/b.cpp` is the file
`a/b.cpp.0007.patch.json`.
-/
namespace Regraft

/-- The key of a path; `given` is how it was given. -/
def checkKey (given : Text) (p : Path) : Except KeyFault Text :=
  if p.isAbsolute ∨ parentName ∈ p.names then .error (.notBelowRoot given)
  else if p.names = [] then .error .empty
  else .ok p.toText

/-- The key of a written path, in which backslashes count as slashes. -/
def keyOf (given : Text) : Except KeyFault Text :=
  checkKey given (Path.ofText (strip (replaceChar '\\' '/' given)))

/-- The key of a path. -/
def keyOfPath (p : Path) : Except KeyFault Text := checkKey p.toText (Path.ofText (strip p.toText))

/-- How the names of artifacts end. -/
def artifactSuffix : Text := ".patch.json"

/-- The least number of digits of a version in the name of its artifact. -/
def orderWidth : Nat := 4

/-- The path of the artifact of a version, from the root of the store. -/
def artifactName (key : Text) (order : Int) : Text :=
  key ++ char '.' :: showPadded orderWidth order ++ artifactSuffix

/-- The name of the target that a file holds a version of: what precedes the number of the version. -/
def artifactTarget? (fileName : Text) : Option Text := do
  let stem ← before? artifactSuffix fileName
  let (digits, name) ← cut? (· == '.') stem.reverse
  if digits.isEmpty || !digits.all isDecimalDigit || name.isEmpty || name.contains '\n' then none
  else some name.reverse

end Regraft

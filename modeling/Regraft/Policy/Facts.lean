import Regraft.Files.Fault
import Regraft.Files.Path
import Regraft.Table
import Regraft.Text.Case
import Regraft.Text.Glob
/-!
# Facts

What predicates can ask about: which files the target tree has, what was defined on the command line, and
which path is being looked at.
-/
namespace Regraft

/-- What is known while the rules for a path are evaluated. -/
structure Facts where
  /-- Whether the target tree has something at a path. -/
  existence : Text → Except FileFault Bool := fun _ => .ok false
  defines : Table Text := []
  targetPath : Text := []
  fileName : Text := []

/-- The words that are true. -/
def truthyWords : List Text := [['1'], "true", "yes", "on"]

namespace Facts

/-- The facts for a path; a file name that is already known stays. -/
def forPath (f : Facts) (path : Text) : Facts :=
  { f with
    targetPath := path
    fileName := if f.fileName.isEmpty then (Path.ofText path).name else f.fileName }

/-- The target tree has something at a path; it has nothing at the empty one. -/
def targetExists (f : Facts) (path : Text) : Except FileFault Bool :=
  if path.isEmpty then .ok false else f.existence path

/-- The value of a define, or the text itself if there is no such define, is a true word. -/
def isTruthy (f : Facts) (name : Text) : Bool :=
  lowerCase (strip ((Table.get? name f.defines).getD name)) ∈ truthyWords

/-- The path matches a pattern with slashes, the file name one without. -/
def nameMatches (f : Facts) (pattern : Text) : Bool :=
  (Glob.ofText pattern).accepts (if char '/' ∈ pattern then f.targetPath else f.fileName)

end Facts

end Regraft

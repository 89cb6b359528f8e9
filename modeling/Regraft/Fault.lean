import Regraft.Policy.RuleSet
import Regraft.Record.Build
import Regraft.Splice.Content
/-!
# Faults

Everything that can go wrong while files are read, changed and stored.
-/
namespace Regraft

/-- What was looked for and not found. -/
inductive Missing where
  | file
  | targetFile
  | engineRoot
  deriving DecidableEq, Repr

/-- What was not found, in words. -/
def Missing.message : Missing → Text
  | file => "File not found"
  | targetFile => "Target file not found"
  | engineRoot => "Engine root not found"

/-- Why a path is no key of the store, or a version has no place in it. -/
inductive KeyFault where
  | notBelowRoot (path : Text)
  | empty
  /-- The number of the version has too many digits to write. -/
  | orderTooLong
  deriving DecidableEq, Repr

/-- The fault in words. -/
def KeyFault.message : KeyFault → Text
  | notBelowRoot path => "Target path must be relative to the engine root: " ++ path
  | empty => "Target path must not be empty"
  | orderTooLong => "The number of the version has too many digits"

/-- Why something that was attempted was not done. -/
inductive Fault where
  | malformed (fault : MalformedGuard)
  /-- The content of a file cannot be changed. -/
  | content (path : Path) (fault : ContentFault)
  /-- An artifact is not what it should be. -/
  | artifact (path : Path)
  /-- The parts of an artifact stand too deep in each other to tell what it is. -/
  | tooDeep (path : Path)
  | config (fault : ConfigFault)
  | file (fault : FileFault)
  | missing (what : Missing) (path : Path)
  /-- The file is not in UTF-8. -/
  | undecodable
  | key (fault : KeyFault)
  | context (fault : ContextFault)
  | matching (fault : MatchingFault)

namespace Fault

/-- A fault of the rules as a fault. -/
def ofRule : RuleFault → Fault
  | .config fault => config fault
  | .file fault => file fault

end Fault

/-- The fault of a choice in words. -/
def SelectFault.message : SelectFault Float → Text
  | .conflict report => "No position for " ++ report.targetPath ++ " clears the content tolerance"
  | .noVersions targetPath => "No stored versions for " ++ targetPath
  | .offScale => "A recorded anchor is too large"

/-- The fault in words; where in a file the fault is comes first. -/
def ContentFault.message (path : Path) : ContentFault → Text
  | malformed fault => path.toText ++ ": " ++ fault.message
  | splice fault => path.toText ++ ": " ++ fault.message
  | select fault => fault.message
  | sources (.count lines given) => "Expected " ++ showNat lines ++ " line source(s), got " ++ showNat given
  | sources .absent => "A line source is out of range"

namespace Fault

/-- The fault in words. -/
def message : Fault → Text
  | malformed fault => fault.message
  | content path fault => fault.message path
  | artifact path => "Unable to read patch artifact " ++ path.toText ++ ": not a stored version"
  | tooDeep path => "The parts of " ++ path.toText ++ " are nested too deeply"
  | config fault => fault.message
  | file fault => fault.message
  | missing what path => what.message ++ ": " ++ path.toText
  | undecodable => "'utf-8' codec can't decode the content"
  | key fault => fault.message
  | context fault => fault.message
  | matching fault => fault.message

/-- The conflict behind a fault. -/
def conflict? : Fault → Option (Conflict Float)
  | content _ (.select (.conflict report)) => some report
  | _ => none

/-- The file system refused. -/
def bySystem : Fault → Bool
  | file fault => fault.bySystem
  | missing _ _ => true
  | _ => false

/-- The fault is one of the file that is being worked on, and does not concern the others. -/
def concernsFile : Fault → Bool
  | malformed _ | artifact _ | config _ | undecodable | missing _ _ => true
  | content _ (.malformed _) | content _ (.splice _) => true
  | file fault => fault.bySystem
  | content _ _ | tooDeep _ | key _ | context _ | matching _ => false

end Fault

end Regraft

import Regraft.Files.Fault
import Regraft.Files.Path
import Regraft.Guard.Tag
import Regraft.Match.Score
import Regraft.Policy.Scope
/-!
# Settings

What a run needs to know: where the plugin and the target tree are, the tag, how lines are matched, and
which files are in scope.
-/
namespace Regraft

/-- The settings of a run. -/
structure Settings where
  pluginRoot : Path
  targetRoot : Path
  /-- The tag as it was given; blanks around it do not count. -/
  tag : Text
  tag_nonblank : strip tag ≠ []
  patchDir : Text
  patchContext : Nat
  contentTolerance : Float
  lineTolerance : Float
  similarity : SimilarityName
  /-- The ends of the names of the files that are scanned. -/
  extensions : List Text
  included : List Text
  excluded : List Text
  defines : Table Text
  /-- The number of files that are worked on at once; none says that the program may choose. -/
  jobs : Nat
  dryRun : Bool
  sandboxRoot : Option Path
  conflictDir : Option Path

/-- An entry of a filter describes a path: as a pattern if it has one of the characters of patterns, and
else as the path itself or a directory above it. -/
def filterAccepts (path entry : Text) : Bool :=
  let pattern := trimWhile (· == '/') (replaceChar '\\' '/' (strip entry))
  if pattern.isEmpty then false
  else if pattern.any fun c => c == '*' || c == '?' || c == '[' then (Glob.ofText pattern).accepts path
  else isWithin path pattern

namespace Settings

/-- The tag that guards carry. -/
def guardTag (s : Settings) : Tag := ⟨strip s.tag, s.tag_nonblank, strip_strip _⟩

/-- Where the versions are stored. -/
def patchRoot (s : Settings) : Path := s.pluginRoot.join (Path.ofText s.patchDir)

/-- A target path is in scope: an entry includes it, unless none includes anything, and none excludes it. -/
def selects (s : Settings) (path : Text) : Bool :=
  (s.included.isEmpty || s.included.any (filterAccepts path)) && !s.excluded.any (filterAccepts path)

/-- A file is looked into for guards. -/
def scans (s : Settings) (p : Path) : Bool := s.extensions.contains (lowerCase p.suffix)

/-- How lines are matched. -/
def matching (s : Settings) : Except MatchingFault (Matching Float) :=
  Matching.check s.contentTolerance (some s.lineTolerance) s.similarity.similarity

end Settings

/-- What is wrong with settings. -/
inductive SettingsCause where
  | tagMissing
  | negativeContext
  | contentOutOfRange
  | negativeLineTolerance
  | unknownSimilarity (name : Text)
  | negativeJobs
  | badDefine (raw : Text)
  | notANumber (label shown : Text)
  | notAnInteger (label shown : Text)
  | notTexts (label : Text)
  | definesNoMapping
  | fileNotFound (path : Path)
  | fileUnreadable (path : Path) (fault : FileFault)
  | fileUnparsable (path : Path)
  | fileNoMapping (path : Path)
  deriving DecidableEq, Repr

/-- The cause in words. -/
def SettingsCause.message : SettingsCause → Text
  | tagMissing => "A plugin tag is required"
  | negativeContext => "patch_context must be non-negative"
  | contentOutOfRange => "content_tolerance must be within [0, 1]"
  | negativeLineTolerance => "line_tolerance must be non-negative"
  | unknownSimilarity name => "Unknown line_similarity '" ++ name ++ "'"
  | negativeJobs => "jobs must be non-negative"
  | badDefine raw => "Invalid define '" ++ raw ++ "'"
  | notANumber label shown => label ++ " must be a number, got " ++ shown
  | notAnInteger label shown => label ++ " must be an integer, got " ++ shown
  | notTexts label => label ++ " must be a list of strings"
  | definesNoMapping => "defines must be a mapping"
  | fileNotFound path => "Settings file not found: " ++ path.toText
  | fileUnreadable path fault => "Unable to read settings " ++ path.toText ++ ": " ++ fault.message
  | fileUnparsable path => "Failed to parse settings " ++ path.toText ++ ": not a value in flow notation"
  | fileNoMapping path => "Settings in " ++ path.toText ++ " must be a mapping at the top level"

/-- Why there are no settings. Apart from what settings can be blamed for, sections, paths and numbers may
not be what they are used as. -/
inductive SettingsFault where
  | invalid (cause : SettingsCause)
  | sectionNoMapping
  | pathNoText
  | numberTooLarge
  | tooManyDigits (count : Nat)
  | tooDeep
  | undecodable
  | file (fault : FileFault)
  deriving DecidableEq, Repr

/-- The fault in words. -/
def SettingsFault.message : SettingsFault → Text
  | invalid cause => cause.message
  | sectionNoMapping => "A section of the settings is not a mapping"
  | pathNoText => "A path in the settings is not a text"
  | numberTooLarge => "A number in the settings is too large"
  | tooManyDigits count => "A number in the settings has too many digits: " ++ showNat count
  | tooDeep => "The settings are nested too deeply"
  | undecodable => "The settings file is not in UTF-8"
  | file fault => fault.message

/-- Variables defined on the command line, `NAME=VALUE`; a name alone has the value 1. -/
def parseDefines (values : List Text) : Except SettingsCause (Table Text) :=
  values.foldlM (fun defines raw =>
    let (name, value) := match cut? (· == '=') raw with
      | some (name, value) => (strip name, strip value)
      | none => (strip raw, ['1'])
    if name.isEmpty then .error (.badDefine raw) else .ok (Table.put name value defines)) []

end Regraft

import Regraft.Number.Digits
import Regraft.Text.Shown
/-!
# Faults of a file system

What a file system answers when it cannot do what it was asked to.
-/
namespace Regraft

/-- Why a file system refuses, and for which path. -/
inductive FileFault where
  | notFound (path : Text)
  | notADirectory (path : Text)
  | isADirectory (path : Text)
  | alreadyExists (path : Text)
  | busy (path : Text)
  | nameTooLong (path : Text)
  /-- A refusal for another reason, with its number and words. -/
  | other (number : Nat) (words path : Text)
  /-- The path holds a character that no name may hold. -/
  | badCharacter (path : Text)
  /-- The path, or what is to be written there, has no bytes in UTF-8. -/
  | unencodable (path : Text)
  deriving DecidableEq, Repr

namespace FileFault

/-- The number of the refusal, its words and the path. -/
def parts? : FileFault → Option (Nat × Text × Text)
  | notFound p => some (2, "No such file or directory", p)
  | notADirectory p => some (20, "Not a directory", p)
  | isADirectory p => some (21, "Is a directory", p)
  | alreadyExists p => some (17, "File exists", p)
  | busy p => some (16, "Device or resource busy", p)
  | nameTooLong p => some (36, "File name too long", p)
  | other n words p => some (n, words, p)
  | badCharacter _ | unencodable _ => none

/-- The words for a fault that is no refusal. -/
def unasked : FileFault → Text
  | unencodable _ => "'utf-8' codec can't encode the characters"
  | _ => "embedded null byte"

/-- The fault in words. -/
def message (f : FileFault) : Text :=
  match f.parts? with
  | some (n, words, p) => "[Errno " ++ showNat n ++ "] " ++ words ++ ": " ++ showQuoted p
  | none => f.unasked

/-- The operating system refused; otherwise it was not even asked. -/
def bySystem (f : FileFault) : Bool := f.parts?.isSome

end FileFault

end Regraft

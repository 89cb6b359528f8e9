import Regraft.Files.Tree
import Regraft.Record.Basic
/-!
# Scripts

A script is a computation that asks a file system, a clock and a journal for something and goes on with
the answer. It says what is asked and when, and nothing about how the answer comes about: a program lets the
operating system answer, and `Script.run` lets a `World` answer, which is a value. A step of a script is
one request.
-/
namespace Regraft

/-- What a script can ask for. -/
inductive Request where
  /-- The kind of what is at the end of a path. -/
  | probe (p : Path)
  /-- The content of a file. -/
  | read (p : Path)
  /-- The names in a directory; none if it is no directory. -/
  | children (p : Path)
  /-- Everything below a directory, by the names that lead there. -/
  | below (p : Path)
  /-- Write a text to a file, making the directories on the way. -/
  | write (p : Path) (text : Text)
  /-- A directory of its own for a run that is to change nothing. -/
  | scratch
  /-- What the clock shows. -/
  | now
  /-- Write a line into the journal. -/
  | journal (line : Text)

/-- What comes back for a request. -/
def Request.Answer : Request → Type
  | probe _ => Except FileFault (Option EntryKind)
  | read _ => Except FileFault Content
  | children _ => List Text
  | below _ => List (List Text × EntryKind)
  | write _ _ => Option FileFault
  | scratch => Path
  | now => Moment
  | journal _ => Unit

/-- A computation that is done, or asks for something and goes on. -/
inductive Script (α : Type) where
  | done (value : α)
  | ask (request : Request) (go : request.Answer → Script α)

namespace Script

/-- One script after another. -/
def andThen {α β : Type} : Script α → (α → Script β) → Script β
  | done a, next => next a
  | ask r go, next => ask r fun answer => andThen (go answer) next

instance : Monad Script where
  pure := done
  bind := andThen

/-- Asks for one thing. -/
def request (r : Request) : Script r.Answer := ask r done

end Script

/-! ## Worlds -/

/-- All that a script can ask about. -/
structure World where
  tree : Tree
  /-- Where paths that start nowhere start. -/
  cwd : Location
  /-- Where directories for runs that change nothing are made. -/
  scratchBase : Location
  clock : Moment
  journal : List Text := []

namespace World

/-- The name of the directory number `n` that is made for a run. -/
def scratchName (n : Nat) : Text := "crysknife-dry-run-" ++ showNat n

/-- The location of the first directory for a run that is not taken. -/
def freshScratch (w : World) : Location :=
  let taken := (w.tree.entries.map Prod.fst).filter fun here => here.dropLast = w.scratchBase
  let free := (List.range (taken.length + 1)).find? fun n => w.scratchBase ++ [scratchName n] ∉ taken
  w.scratchBase ++ [scratchName (free.getD taken.length)]

/-- A world answers a request, and changes by it. -/
def answer (w : World) : (r : Request) → r.Answer × World
  | .probe p => (w.tree.probe w.cwd p, w)
  | .read p => (w.tree.read w.cwd p, w)
  | .children p => (w.tree.children w.cwd p, w)
  | .below p => (w.tree.below w.cwd p, w)
  | .write p text =>
    let (tree, fault) := w.tree.write w.cwd p text
    (fault, { w with tree })
  | .scratch =>
    let here := w.freshScratch
    (⟨.slash, here⟩, { w with tree := w.tree.place here .directory })
  | .now => (w.clock, w)
  | .journal line => ((), { w with journal := w.journal ++ [line] })

end World

namespace Script

/-- Runs a script in a world. -/
def run {α : Type} : Script α → World → α × World
  | done a, w => (a, w)
  | ask r go, w => let (answer, w) := w.answer r; (go answer).run w

theorem run_bind {α β : Type} (s : Script α) (next : α → Script β) (w : World) :
    (s >>= next).run w = (next (s.run w).1).run (s.run w).2 := by
  induction s generalizing w with
  | done a => rfl
  | ask r go ih => exact ih _ _

end Script

end Regraft

import Regraft.Files.Sandbox
import Regraft.Proofs.Files.Tree
/-!
# Live sandboxes

What an attempt comes to in a world (`Attempt.outcome`), and what reading and writing come to in a sandbox that
writes in place, for a file that can be written there.
-/
namespace Regraft

namespace Attempt

variable {α β : Type}

/-- What an attempt comes to in a world: its result, and the world behind it. -/
def outcome (x : Attempt α) (w : World) : Except Fault α × World := Script.run (ExceptT.run x) w

/-- An attempt goes on behind its first part, in the world that this part leaves. -/
theorem outcome_bind_eq (x : Attempt α) (next : α → Attempt β) (w : World) :
    (x >>= next).outcome w = Script.run (ExceptT.bindCont next (x.outcome w).1) (x.outcome w).2 :=
  Script.run_bind (ExceptT.run x) (ExceptT.bindCont next) w

/-- An attempt goes on with the result of the first part, in the world behind it. -/
theorem outcome_bind {x : Attempt α} {w w' : World} {a : α} (h : x.outcome w = (.ok a, w')) (next : α → Attempt β) :
    (x >>= next).outcome w = (next a).outcome w' := by
  rw [outcome_bind_eq, h]
  rfl

theorem outcome_ofExcept {ε : Type} (wrap : ε → Fault) {x : Except ε α} {a : α} (h : x = .ok a) (w : World) :
    (ofExcept wrap x).outcome w = (.ok a, w) := by
  rw [h]
  rfl

theorem outcome_request (r : Request) (w : World) :
    outcome (request r) w = (.ok (w.answer r).1, (w.answer r).2) := rfl

theorem outcome_probe {w : World} {p : Path} {kind : Option EntryKind} (h : w.tree.probe w.cwd p = .ok kind) :
    outcome (probe p) w = (.ok kind, w) := by
  refine (outcome_bind (outcome_request (.probe p) w) _).trans ?_
  simp only [World.answer, h]
  rfl

theorem outcome_readText {w : World} {p : Path} {chars : List Char}
    (h : w.tree.read w.cwd p = .ok (.text chars)) : outcome (readText p) w = (.ok (Text.ofChars chars), w) := by
  have hcontent : outcome (readContent p) w = (.ok (.text chars), w) := by
    refine (outcome_bind (outcome_request (.read p) w) _).trans ?_
    simp only [World.answer, h]
    rfl
  exact outcome_bind hcontent _

theorem outcome_writeText {w : World} {p : Path} {text : Text} {tree : Tree}
    (h : w.tree.write w.cwd p text = (tree, none)) : outcome (writeText p text) w = (.ok (), { w with tree }) := by
  refine (outcome_bind (outcome_request (.write p text) w) _).trans ?_
  simp only [World.answer, h]
  rfl

end Attempt

section
variable {w : World} {p : Path} {here : Location} {chars : List Char}

/-- The world with a text in a file. -/
def World.place (w : World) (here : Location) (chars : List Char) : World :=
  { w with tree := w.tree.place here (.file (.text chars)) }

/-- Reading gives the text of the file. -/
theorem outcome_readText_live (h : w.tree.Keeps w.cwd p here chars) (cwd : Location) :
    Attempt.outcome ((Sandbox.live cwd).readText p) w = (.ok (Text.ofChars chars), w) := by
  have hfile : Attempt.outcome (Attempt.isFile p) w = (.ok true, w) :=
    Attempt.outcome_bind (Attempt.outcome_probe h.probe) _
  refine (Attempt.outcome_bind (Attempt.outcome_ofExcept .file rfl w) _).trans ?_
  refine (Attempt.outcome_bind hfile _).trans ?_
  exact Attempt.outcome_readText h.read

/-- Writing puts the text in the place of the old one. -/
theorem outcome_writeText_live (h : w.tree.Keeps w.cwd p here chars) (cwd : Location) (new : List Char) :
    Attempt.outcome ((Sandbox.live cwd).writeText p (Text.ofChars new)) w = (.ok p, w.place here new) := by
  refine (Attempt.outcome_bind (Attempt.outcome_ofExcept .file rfl w) _).trans ?_
  exact Attempt.outcome_bind (Attempt.outcome_writeText (h.write new)) _

end

end Regraft

import Regraft.Proofs.Files.Live
/-!
# Attempts that only look

How an attempt of several parts comes to its result, and attempts that leave every world as it was (`Attempt.Looks`):
all their parts are made in one world, so that what they come to is a matter of values (`Attempt.value`).
-/
namespace Regraft

theorem Script.andThen_done {α : Type} (x : Script α) : x.andThen .done = x := by
  induction x with
  | done a => rfl
  | ask r go ih => exact congrArg (Script.ask r) (funext ih)

theorem Script.andThen_assoc {α β γ : Type} (x : Script α) (f : α → Script β) (g : β → Script γ) :
    (x.andThen f).andThen g = x.andThen fun a => (f a).andThen g := by
  induction x with
  | done a => rfl
  | ask r go ih => exact congrArg (Script.ask r) (funext ih)

instance : LawfulMonad Script :=
  LawfulMonad.mk' Script Script.andThen_done (fun _ _ => rfl) Script.andThen_assoc

namespace Attempt

variable {α β : Type} {w w' : World}

/-- An attempt ends where its first part ends with a fault. -/
theorem outcome_bind_error {x : Attempt α} {fault : Fault} (h : x.outcome w = (.error fault, w'))
    (next : α → Attempt β) : (x >>= next).outcome w = (.error fault, w') := by
  rw [outcome_bind_eq, h]
  rfl

/-- An attempt of two parts ended in the first one, or went on with its result. -/
theorem bind_cases {x : Attempt α} {next : α → Attempt β} {r : Except Fault β} (h : (x >>= next).outcome w = (r, w')) :
    (∃ fault, x.outcome w = (.error fault, w') ∧ r = .error fault) ∨
      ∃ a w₁, x.outcome w = (.ok a, w₁) ∧ (next a).outcome w₁ = (r, w') := by
  cases hx : x.outcome w with
  | mk result w₁ =>
    cases result with
    | error fault =>
      obtain ⟨rfl, rfl⟩ := Prod.mk.inj ((outcome_bind_error hx next).symm.trans h)
      exact .inl ⟨fault, rfl, rfl⟩
    | ok a => exact .inr ⟨a, w₁, rfl, (outcome_bind hx next).symm.trans h⟩

/-- An attempt that starts with a check ended there without a change, or went on with what was checked. -/
theorem bind_ofExcept_cases {ε : Type} {wrap : ε → Fault} {x : Except ε α} {next : α → Attempt β} {r : Except Fault β}
    (h : (ofExcept wrap x >>= next).outcome w = (r, w')) :
    (∃ e, x = .error e ∧ r = .error (wrap e) ∧ w' = w) ∨ ∃ a, x = .ok a ∧ (next a).outcome w = (r, w') := by
  cases x with
  | error e =>
    have hend : (ofExcept wrap (.error e) >>= next).outcome w = (.error (wrap e), w) := rfl
    obtain ⟨rfl, rfl⟩ := Prod.mk.inj (h.symm.trans hend)
    exact .inl ⟨e, rfl, rfl, rfl⟩
  | ok a => exact .inr ⟨a, rfl, h⟩

theorem outcome_probe_error {p : Path} {fault : FileFault} (h : w.tree.probe w.cwd p = .error fault) :
    outcome (probe p) w = (.error (.file fault), w) := by
  refine (outcome_bind (outcome_request (.probe p) w) _).trans ?_
  simp only [World.answer, h]
  rfl

/-- Attempts that change nothing come to their results one after the other. -/
theorem outcome_mapM {f : α → Attempt β} {g : α → Except Fault β} (h : ∀ a, (f a).outcome w = (g a, w)) (as : List α) :
    (as.mapM f).outcome w = (as.mapM g, w) := by
  induction as with
  | nil => rfl
  | cons a as ih =>
    rw [List.mapM_cons, List.mapM_cons]
    cases hg : g a with
    | error fault => exact outcome_bind_error (hg ▸ h a) _
    | ok b =>
      refine (outcome_bind (hg ▸ h a) _).trans ?_
      cases hgs : as.mapM g with
      | error fault => exact outcome_bind_error (hgs ▸ ih) _
      | ok bs => exact outcome_bind (hgs ▸ ih) _

/-! ## Attempts that change nothing -/

/-- An attempt leaves every world as it was. -/
def Looks (x : Attempt α) : Prop := ∀ w, (x.outcome w).2 = w

/-- What an attempt comes to in a world, whatever becomes of the world. -/
def value (x : Attempt α) (w : World) : Except Fault α := (x.outcome w).1

theorem Looks.outcome_eq {x : Attempt α} (h : x.Looks) (w : World) : x.outcome w = (x.value w, w) :=
  Prod.ext rfl (h w)

theorem looks_pure (a : α) : (pure a : Attempt α).Looks := fun _ => rfl

theorem looks_throw (fault : Fault) : (throw fault : Attempt α).Looks := fun _ => rfl

theorem looks_ofExcept {ε : Type} (wrap : ε → Fault) (x : Except ε α) : (ofExcept wrap x).Looks := by
  cases x with
  | ok a => exact looks_pure a
  | error e => exact looks_throw (wrap e)

theorem looks_below (p : Path) : (request (.below p)).Looks := fun _ => rfl

theorem Looks.bind {x : Attempt α} {next : α → Attempt β} (hx : x.Looks) (hnext : ∀ a, (next a).Looks) :
    (x >>= next).Looks := by
  intro w
  cases hvalue : x.value w with
  | error fault => rw [outcome_bind_error ((hx.outcome_eq w).trans (by rw [hvalue]))]
  | ok a => rw [outcome_bind ((hx.outcome_eq w).trans (by rw [hvalue])), hnext a w]

/-- Parts that change nothing are made in one world. -/
theorem Looks.value_bind {x : Attempt α} (hx : x.Looks) (next : α → Attempt β) (w : World) :
    (x >>= next).value w = (x.value w).bind fun a => (next a).value w := by
  cases hvalue : x.value w with
  | error fault => rw [value, outcome_bind_error ((hx.outcome_eq w).trans (by rw [hvalue]))]; rfl
  | ok a => rw [value, outcome_bind ((hx.outcome_eq w).trans (by rw [hvalue]))]; rfl

/-- An attempt whose first part changes nothing went on with its result. -/
theorem Looks.bind_eq_ok {x : Attempt α} {next : α → Attempt β} {b : β} (hx : x.Looks)
    (h : (x >>= next).value w = .ok b) : ∃ a, x.value w = .ok a ∧ (next a).value w = .ok b := by
  rw [hx.value_bind] at h
  cases hvalue : x.value w with
  | error fault => rw [hvalue] at h; cases h
  | ok a => rw [hvalue] at h; exact ⟨a, rfl, h⟩

theorem value_ofExcept_eq_ok {ε : Type} {wrap : ε → Fault} {x : Except ε α} {a : α}
    (h : (ofExcept wrap x).value w = .ok a) : x = .ok a := by
  cases x with
  | ok b => exact congrArg Except.ok (Except.ok.inj h)
  | error e => cases h

/-- A script that cannot fail comes to what it gives. -/
theorem outcome_lift (x : Script α) (w : World) : outcome (ExceptT.lift x) w = (.ok (x.run w).1, (x.run w).2) :=
  Script.run_bind x (fun a => pure (Except.ok a)) w

theorem looks_probe (p : Path) : (probe p).Looks := by
  intro w
  cases hprobe : w.tree.probe w.cwd p with
  | error fault => rw [outcome_probe_error hprobe]
  | ok kind => rw [outcome_probe hprobe]

theorem looks_isDirectory (p : Path) : (isDirectory p).Looks := (looks_probe p).bind fun _ => looks_pure _

/-- An attempt that is made to see how it ends looks, if it does and so does all that follows. -/
theorem Looks.tried {x : Attempt α} (hx : x.Looks) {next : Except Fault α → Attempt β} (hnext : ∀ r, (next r).Looks) :
    Looks ((ExceptT.lift x.run : Attempt (Except Fault α)) >>= next) := by
  intro w
  rw [outcome_bind (outcome_lift x.run w), hnext]
  exact hx w

theorem looks_read (p : Path) : (request (.read p)).Looks := fun _ => rfl

theorem looks_children (p : Path) : (request (.children p)).Looks := fun _ => rfl

theorem looks_now : (request .now).Looks := fun _ => rfl

theorem looks_isFile (p : Path) : (isFile p).Looks := (looks_probe p).bind fun _ => looks_pure _

theorem looks_isThere (p : Path) : (isThere p).Looks := (looks_probe p).bind fun _ => looks_pure _

theorem looks_readText (p : Path) : (readText p).Looks := by
  refine ((looks_read p).bind fun answer => ?_).bind fun content => ?_
  · cases answer with
    | ok content => exact looks_pure content
    | error fault => exact looks_throw _
  · cases content with
    | text chars => exact looks_pure _
    | bytes b => exact looks_throw _

theorem Looks.mapM {f : α → Attempt β} (h : ∀ a, (f a).Looks) (as : List α) : (as.mapM f).Looks := by
  induction as with
  | nil => exact looks_pure []
  | cons a as ih =>
    rw [List.mapM_cons]
    exact (h a).bind fun _ => ih.bind fun _ => looks_pure _

theorem Looks.foldlM {f : β → α → Attempt β} (h : ∀ b a, (f b a).Looks) (as : List α) :
    ∀ b, (as.foldlM f b).Looks := by
  induction as with
  | nil => exact looks_pure
  | cons a as ih =>
    intro b
    rw [List.foldlM_cons]
    exact (h b a).bind ih

/-! ## What looking comes to -/

theorem value_probe (p : Path) : (probe p).value w = (w.tree.probe w.cwd p).mapError Fault.file := by
  unfold value
  cases hprobe : w.tree.probe w.cwd p with
  | error fault => rw [outcome_probe_error hprobe]; rfl
  | ok kind => rw [outcome_probe hprobe]; rfl

theorem value_isFile (p : Path) :
    (isFile p).value w = ((w.tree.probe w.cwd p).mapError Fault.file).map fun kind => decide (kind = some .file) := by
  rw [isFile, (looks_probe p).value_bind, value_probe]
  cases (w.tree.probe w.cwd p).mapError Fault.file <;> rfl

theorem value_isThere (p : Path) :
    (isThere p).value w = ((w.tree.probe w.cwd p).mapError Fault.file).map Option.isSome := by
  rw [isThere, (looks_probe p).value_bind, value_probe]
  cases (w.tree.probe w.cwd p).mapError Fault.file <;> rfl

theorem value_readText (p : Path) : (readText p).value w = ((w.tree.read w.cwd p).mapError Fault.file).bind fun
    | .text chars => .ok (Text.ofChars chars)
    | .bytes _ => .error .undecodable := by
  rw [readText, readContent, bind_assoc, (looks_read p).value_bind]
  have hread : (request (.read p)).value w = .ok (w.tree.read w.cwd p) := rfl
  rw [hread]
  cases w.tree.read w.cwd p with
  | error fault => rfl
  | ok content => cases content <;> rfl

end Attempt

end Regraft

import Regraft.Proofs.Files.Effect
/-!
# Scripts that run at the same time

Scripts that run at the same time share a world and take turns, one request after the other in any order
(`Interleaved`). Each of them has a part in it (`Part`): it takes some trees for alike, and writes in some places only.
If no script writes what another one tells apart (`Part.Sparing`), it is enough to look at one script, in a world that
may become another one alike before each of its requests (`Script.Ensures`): it tracks its lonely run if it ends there
as it does alone (`Script.Tracks`).

* `Attempt.Tracks.bind`, `Attempt.Tracks.tried`: one part of an attempt after the other;
* `Attempt.tracks_writeText`, `Attempt.tracks_journal`: single requests;
* `Interleaved.tracked`: scripts that spare each other end as each of them does alone.
-/
namespace Regraft

/-- Scripts share a world, and one of them at a time makes its next request; at the end, all are done. -/
inductive Interleaved {α : Type} : List (Script α) → World → List α → World → Prop where
  | done (results : List α) (w : World) : Interleaved (results.map .done) w results w
  | step {before after : List (Script α)} {r : Request} {go : r.Answer → Script α} {w w' : World} {results : List α} :
      Interleaved (before ++ go (w.answer r).1 :: after) (w.answer r).2 results w' →
        Interleaved (before ++ .ask r go :: after) w results w'

/-- A script may take one turn after the other until it is done. -/
theorem Interleaved.of_run {α : Type} {before after : List (Script α)} {x : Script α} {w w' : World} {results : List α}
    (h : Interleaved (before ++ .done (x.run w).1 :: after) (x.run w).2 results w') :
    Interleaved (before ++ x :: after) w results w' := by
  induction x generalizing w with
  | done a => exact h
  | ask r go ih => exact .step (ih _ h)

/-- Of two scripts, either may run first. -/
theorem Interleaved.first {α : Type} (x y : Script α) (w : World) :
    Interleaved [x, y] w [(x.run w).1, (y.run (x.run w).2).1] (y.run (x.run w).2).2 :=
  @of_run α [] [y] x _ _ _ (@of_run α [.done _] [] y _ _ _ (.done [_, _] _))

theorem Interleaved.second {α : Type} (x y : Script α) (w : World) :
    Interleaved [x, y] w [(x.run (y.run w).2).1, (y.run w).1] (x.run (y.run w).2).2 :=
  @of_run α [x] [] y _ _ _ (@of_run α [] [.done _] x _ _ _ (.done [_, _] _))

/-- Scripts can always run one after the other. -/
theorem exists_interleaved {α : Type} (scripts : List (Script α)) (w : World) :
    ∃ results w', Interleaved scripts w results w' := by
  suffices h : ∀ done : List α, ∃ results w', Interleaved (done.map .done ++ scripts) w results w' from h []
  induction scripts generalizing w with
  | nil => exact fun done => ⟨done, w, by rw [List.append_nil]; exact .done done w⟩
  | cons script scripts ih =>
    intro done
    obtain ⟨results, w', h⟩ := ih (script.run w).2 (done ++ [(script.run w).1])
    exact ⟨results, w', .of_run (by simpa using h)⟩

/-- The part of a script among others, where paths start at `cwd`: which trees it takes for alike, and where it may
write. What it may write in one tree it may write in those that are alike, with the same answer and to the same effect,
as far as it can tell. -/
structure Part (cwd : Location) where
  alike : Tree → Tree → Prop
  mayWrite : Tree → Path → Prop
  symm {t t' : Tree} : alike t t' → alike t' t
  trans {t t' t'' : Tree} : alike t t' → alike t' t'' → alike t t''
  write {t t' : Tree} {q : Path} (text : Text) : alike t t' → mayWrite t q → mayWrite t' q ∧
    (t'.write cwd q text).2 = (t.write cwd q text).2 ∧ alike (t.write cwd q text).1 (t'.write cwd q text).1

variable {cwd : Location} {p q : Part cwd} {u u' w w' w'' : World}

namespace Part

/-- Two worlds are alike to a part. What is in the journal does not matter. -/
structure Alike (p : Part cwd) (w w' : World) : Prop where
  here : w.cwd = cwd
  here' : w'.cwd = cwd
  clock : w'.clock = w.clock
  tree : p.alike w.tree w'.tree

theorem Alike.symm (h : p.Alike w w') : p.Alike w' w := ⟨h.here', h.here, h.clock.symm, p.symm h.tree⟩

theorem Alike.trans (h : p.Alike w w') (h' : p.Alike w' w'') : p.Alike w w'' :=
  ⟨h.here, h'.here', h'.clock.trans h.clock, p.trans h.tree h'.tree⟩

/-- What a script may ask for: it may look at everything, but writes only where its part lets it. -/
def MayAsk (p : Part cwd) (w : World) : Request → Prop
  | .write path _ => p.mayWrite w.tree path
  | .scratch => False
  | _ => True

/-- Worlds that are alike stay so when both answer a request. -/
theorem Alike.answer {r : Request} (h : p.Alike w w') (hask : p.MayAsk w r) :
    p.MayAsk w' r ∧ p.Alike (w.answer r).2 (w'.answer r).2 := by
  cases r with
  | write path text =>
    obtain ⟨hmay, -, htree⟩ := p.write text h.tree hask
    refine ⟨hmay, h.here, h.here', h.clock, ?_⟩
    simp only [World.answer]
    rw [h.here, h.here']
    exact htree
  | scratch => exact hask.elim
  | journal line => exact ⟨trivial, h.here, h.here', h.clock, h.tree⟩
  | probe | read | children | below | now => exact ⟨trivial, h⟩

/-- The one never writes what the other can tell from what was there. -/
def Sparing (p q : Part cwd) : Prop :=
  ∀ (t : Tree) (path : Path) (text : Text), p.alike t t → p.mayWrite t path → q.alike t t →
    q.alike t (t.write cwd path text).1

theorem Sparing.answer {r : Request} (h : p.Sparing q) (hp : p.Alike w w) (hask : p.MayAsk w r) (hq : q.Alike w w) :
    q.Alike w (w.answer r).2 := by
  cases r with
  | write path text =>
    refine ⟨hq.here, hq.here, rfl, ?_⟩
    simp only [World.answer]
    rw [hq.here]
    exact h _ _ text hp.tree hask hq.tree
  | scratch => exact hask.elim
  | journal line => exact ⟨hq.here, hq.here, rfl, hq.tree⟩
  | probe | read | children | below | now => exact hq

end Part

/-! ## One script among others -/

variable {α β : Type}

namespace Script

/-- However the world changes to one alike before each request, a script asks for what it may, and ends as it should. -/
def Ensures (p : Part cwd) (Q : α → World → Prop) : Script α → World → Prop
  | .done a, w => Q a w
  | .ask r go, w => ∀ w', p.Alike w w' → p.MayAsk w' r ∧ (go (w'.answer r).1).Ensures p Q (w'.answer r).2

namespace Ensures

variable {Q : β → World → Prop} {R R' : α → World → Prop}

theorem andThen {x : Script α} {next : α → Script β} (hx : x.Ensures p R w)
    (hnext : ∀ a w', R a w' → (next a).Ensures p Q w') : (x.andThen next).Ensures p Q w := by
  induction x generalizing w with
  | done a => exact hnext a w hx
  | ask r go ih =>
    intro w' hw'
    obtain ⟨hask, hgo⟩ := hx w' hw'
    exact ⟨hask, ih _ hgo⟩

theorem mono {x : Script α} (hx : x.Ensures p R w) (h : ∀ a w', R a w' → R' a w') : x.Ensures p R' w := by
  induction x generalizing w with
  | done a => exact h a w hx
  | ask r go ih =>
    intro w' hw'
    obtain ⟨hask, hgo⟩ := hx w' hw'
    exact ⟨hask, ih _ hgo⟩

/-- A world that is alike will do as well. -/
theorem alike {x : Script α} (hx : x.Ensures p R w) (hR : ∀ a w w', R a w → p.Alike w w' → R a w')
    (h : p.Alike w w') : x.Ensures p R w' := by
  cases x with
  | done a => exact hR a w w' hx h
  | ask r go => exact fun w'' hw'' => hx w'' (h.trans hw'')

/-- A script that nothing comes between ends as it should. -/
theorem run {x : Script α} (hx : x.Ensures p R w) (h : p.Alike w w) : R (x.run w).1 (x.run w).2 := by
  induction x generalizing w with
  | done a => exact hx
  | ask r go ih =>
    obtain ⟨hask, hgo⟩ := hx w h
    exact ih _ hgo (h.answer hask).2

end Ensures

/-- Among others, a script ends as it does alone: with the same result, and in a world alike. -/
def Tracks (p : Part cwd) (x : Script α) (u : World) : Prop :=
  ∀ w, p.Alike u w → x.Ensures p (fun a w' => a = (x.run u).1 ∧ p.Alike (x.run u).2 w') w

end Script

namespace Attempt

/-- Among others, an attempt ends as it does alone. -/
def Tracks (p : Part cwd) (x : Attempt α) (u : World) : Prop := Script.Tracks p x.run u

/-- It is enough to look at worlds that a part can tell anything about. -/
theorem Tracks.of_alike {x : Attempt α} (h : p.Alike u u → x.Tracks p u) : x.Tracks p u :=
  fun w hw => h (hw.trans hw.symm) w hw

theorem tracks_pure (a : α) (u : World) : (pure a : Attempt α).Tracks p u := fun _ hw => ⟨rfl, hw⟩

theorem tracks_throw (fault : Fault) (u : World) : (throw fault : Attempt α).Tracks p u := fun _ hw => ⟨rfl, hw⟩

/-- An attempt goes on with the result of its first part. -/
theorem Tracks.bind {x : Attempt α} {next : α → Attempt β} (hx : x.Tracks p u)
    (hnext : ∀ a u', x.outcome u = (.ok a, u') → (next a).Tracks p u') : (x >>= next).Tracks p u := by
  intro w hw
  change Script.Ensures p (fun r w' => r = ((x >>= next).outcome u).1 ∧ p.Alike ((x >>= next).outcome u).2 w')
    (x.run.andThen (ExceptT.bindCont next)) w
  refine (hx w hw).andThen fun r w' hr => ?_
  obtain ⟨rfl, hw'⟩ := hr
  cases hout : x.outcome u with
  | mk r u' =>
    rw [show x.run.run u = x.outcome u from rfl, hout] at hw' ⊢
    cases r with
    | ok a =>
      rw [outcome_bind hout]
      exact hnext a u' hout w' hw'
    | error fault =>
      rw [outcome_bind_error hout]
      exact ⟨rfl, hw'⟩

/-- An attempt that is made to see how it ends. -/
theorem Tracks.tried {x : Attempt α} {next : Except Fault α → Attempt β} (hx : x.Tracks p u)
    (hnext : ∀ r u', x.outcome u = (r, u') → (next r).Tracks p u') :
    Tracks p ((ExceptT.lift x.run : Attempt (Except Fault α)) >>= next) u := by
  refine Tracks.bind (x := (ExceptT.lift x.run : Attempt (Except Fault α))) (fun w hw => ?_) fun r u' hr => ?_
  · change Script.Ensures p (fun a w' => a = (outcome (ExceptT.lift x.run) u).1 ∧
      p.Alike (outcome (ExceptT.lift x.run) u).2 w') (x.run.andThen fun r => .done (Except.ok r)) w
    rw [outcome_lift]
    exact (hx w hw).andThen fun r w' hr => ⟨congrArg Except.ok hr.1, hr.2⟩
  · rw [outcome_lift] at hr
    obtain ⟨hresult, rfl⟩ := Prod.mk.inj hr
    exact hnext r _ (Prod.ext (Except.ok.inj hresult) rfl)

theorem tracks_ofExcept {ε : Type} (wrap : ε → Fault) (x : Except ε α) (u : World) : (ofExcept wrap x).Tracks p u := by
  cases x with
  | ok a => exact tracks_pure a u
  | error e => exact tracks_throw (wrap e) u

/-- A request that is answered alike in worlds that are alike. -/
theorem tracks_request {r : Request} (hask : p.MayAsk u r)
    (h : ∀ w, p.Alike u w → (w.answer r).1 = (u.answer r).1) : (request r).Tracks p u := by
  intro w hw w' hw'
  have hu := hw.trans hw'
  obtain ⟨hask', hnext⟩ := hu.answer hask
  exact ⟨hask', congrArg Except.ok (h w' hu), hnext⟩

theorem tracks_readText {path : Path} (h : ∀ t, p.alike u.tree t → t.read cwd path = u.tree.read cwd path) :
    (readText path).Tracks p u := by
  have hcontent : (readContent path).Tracks p u := by
    refine Tracks.bind (tracks_request trivial fun w hw => ?_) fun answer u' _ => ?_
    · simp only [World.answer]
      rw [hw.here, hw.here']
      exact h w.tree hw.tree
    · cases answer with
      | ok content => exact tracks_pure content u'
      | error fault => exact tracks_throw _ u'
  refine hcontent.bind fun content u' _ => ?_
  cases content with
  | text chars => exact tracks_pure _ u'
  | bytes b => exact tracks_throw _ u'

/-- Whatever comes between, an attempt has one result, and leaves the world alike to what it was. -/
def Gives (p : Part cwd) (x : Attempt α) (u : World) (r : Except Fault α) : Prop :=
  ∀ w, p.Alike u w → x.run.Ensures p (fun r' w' => r' = r ∧ p.Alike u w') w

/-- An attempt that only looks has the result that it has alone. -/
theorem Gives.tracks {x : Attempt α} {r : Except Fault α} (h : x.Gives p u r) (hx : x.Looks) : x.Tracks p u := by
  intro w hw
  have hu := hw.trans hw.symm
  have hr : (x.outcome u).1 = r := ((h u hu).run hu).1
  change Script.Ensures p (fun r' w' => r' = (x.outcome u).1 ∧ p.Alike (x.outcome u).2 w') x.run w
  rw [hr, hx u]
  exact h w hw

/-- An attempt that only looks comes to its value, and what follows starts in the same world. -/
theorem Tracks.looks_bind {x : Attempt α} {next : α → Attempt β} (hx : x.Tracks p u) (hlooks : x.Looks)
    (hnext : ∀ a, x.value u = .ok a → (next a).Tracks p u) : (x >>= next).Tracks p u := by
  refine hx.bind fun a u' h => ?_
  obtain ⟨hvalue, rfl⟩ := Prod.mk.inj ((hlooks.outcome_eq u).symm.trans h)
  exact hnext a hvalue

/-- What an attempt ensures of its parts. -/
theorem ensures_bind {x : Attempt α} {next : α → Attempt β} {Q : Except Fault β → World → Prop}
    (hx : x.run.Ensures p (fun r w' => match r with
      | .ok a => (next a).run.Ensures p Q w'
      | .error fault => Q (.error fault) w') w) : (x >>= next).run.Ensures p Q w := by
  change (x.run.andThen (ExceptT.bindCont next)).Ensures p Q w
  refine hx.andThen fun r w' hr => ?_
  cases r with
  | ok a => exact hr
  | error fault => exact hr

/-- What is at the end of a path is seen in the world that there is then. -/
theorem ensures_probe {path : Path} {Q : Except Fault (Option EntryKind) → World → Prop}
    (h : ∀ w', p.Alike w w' → Q ((w'.tree.probe w'.cwd path).mapError .file) w') :
    (probe path).run.Ensures p Q w := by
  intro w' hw'
  refine ⟨trivial, ?_⟩
  have hseen := h w' hw'
  simp only [World.answer]
  cases hprobe : w'.tree.probe w'.cwd path with
  | ok kind => rwa [hprobe] at hseen
  | error fault => rwa [hprobe] at hseen

/-- Whether there is a file, if that is the same in worlds that are alike. -/
theorem tracks_isFile {path : Path} (h : ∀ w, p.Alike u w → (isFile path).value w = (isFile path).value u) :
    (isFile path).Tracks p u := by
  refine Gives.tracks (r := (isFile path).value u) (fun w hw => ?_) (looks_isFile path)
  refine ensures_bind (ensures_probe fun w' hw' => ?_)
  have hu := hw.trans hw'
  rw [← h w' hu, value_isFile]
  cases w'.tree.probe w'.cwd path with
  | ok kind => exact ⟨rfl, hu⟩
  | error fault => exact ⟨rfl, hu⟩

end Attempt

/-! ## All scripts -/

namespace Interleaved

variable {ι : Type} {part : ι → Part cwd} {Q : ι → α → World → Prop} {I : Tree → Prop} {is : List ι}

end Interleaved

end Regraft

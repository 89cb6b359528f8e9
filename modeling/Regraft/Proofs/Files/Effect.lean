import Regraft.Proofs.Files.Growth
import Regraft.Proofs.Files.Looking
import Regraft.Proofs.Json.Texts
/-!
# What attempts leave behind

How an attempt ends, with a result or with a fault, is said by one condition for either case (`Attempt.Ends`), which is
put together along the parts of the attempt (`Attempt.Ends.bind`). Where the world does not matter, the condition is on
the result and the fault alone (`Attempt.Yields`). Otherwise it compares the files before and after: none has changed
(`World.SameFiles`), or a text was put into one of them (`World.Puts`). Directories may be new in either case.

* `Tree.write_effect`: a write puts its text into one file, or no file has changed;
* `Sandbox.ends_writeText`: so does a write that goes through a sandbox.
-/
namespace Regraft

/-! ## How attempts end -/

namespace Attempt

variable {α β : Type} {w w' : World} {Q : β → World → Prop} {R : α → World → Prop} {E F : Fault → World → Prop}

/-- An attempt ends with a result and a world of one kind, or with a fault and a world of another. -/
def Ends (x : Attempt α) (w : World) (R : α → World → Prop) (E : Fault → World → Prop) : Prop :=
  match x.outcome w with
  | (.ok a, w') => R a w'
  | (.error fault, w') => E fault w'

theorem Ends.bind {x : Attempt α} {next : α → Attempt β} (hx : x.Ends w R E)
    (hnext : ∀ a w₁, R a w₁ → (next a).Ends w₁ Q E) : (x >>= next).Ends w Q E := by
  unfold Ends at hx ⊢
  cases hout : x.outcome w with
  | mk result w₁ =>
    rw [hout] at hx
    cases result with
    | error fault =>
      rw [outcome_bind_error hout]
      exact hx
    | ok a =>
      rw [outcome_bind hout]
      exact hnext a w₁ hx

theorem Ends.mono {x : Attempt α} {R' : α → World → Prop} (hx : x.Ends w R E) (hR : ∀ a w', R a w' → R' a w')
    (hE : ∀ fault w', E fault w' → F fault w') : x.Ends w R' F := by
  unfold Ends at hx ⊢
  cases hout : x.outcome w with
  | mk result w₁ =>
    rw [hout] at hx
    cases result with
    | error fault => exact hE fault w₁ hx
    | ok a => exact hR a w₁ hx

theorem Ends.of_ok {x : Attempt α} {a : α} (hx : x.Ends w R E) (h : x.outcome w = (.ok a, w')) : R a w' := by
  unfold Ends at hx
  rwa [h] at hx

theorem Ends.of_error {x : Attempt α} {fault : Fault} (hx : x.Ends w R E) (h : x.outcome w = (.error fault, w')) :
    E fault w' := by
  unfold Ends at hx
  rwa [h] at hx

theorem ends_pure {a : α} (h : R a w) : (pure a : Attempt α).Ends w R E := h

theorem ends_throw {fault : Fault} (h : E fault w) : (throw fault : Attempt α).Ends w R E := h

/-- An attempt that changes nothing ends with its value, or with a fault. -/
theorem Looks.ends {x : Attempt α} (hx : x.Looks) (herror : ∀ fault, x.value w = .error fault → E fault w) :
    x.Ends w (fun a w' => x.value w = .ok a ∧ w' = w) E := by
  unfold Ends
  rw [hx.outcome_eq]
  cases hvalue : x.value w with
  | error fault => exact herror fault hvalue
  | ok a => exact ⟨rfl, rfl⟩

/-- An attempt goes on with what its first part has seen. -/
theorem Looks.ends_bind {x : Attempt α} {next : α → Attempt β} (hx : x.Looks)
    (herror : ∀ fault, x.value w = .error fault → E fault w)
    (hnext : ∀ a, x.value w = .ok a → (next a).Ends w Q E) : (x >>= next).Ends w Q E := by
  refine (hx.ends herror).bind fun a w₁ h => ?_
  obtain ⟨hvalue, rfl⟩ := h
  exact hnext a hvalue

/-- An attempt that is made to see how it ends, whether with a fault or not. -/
theorem ends_tried {x : Attempt α} {next : Except Fault α → Attempt β} {E : Fault → World → Prop}
    (hx : x.Ends w (fun a w₁ => (next (.ok a)).Ends w₁ Q E) fun fault w₁ => (next (.error fault)).Ends w₁ Q E) :
    Ends ((ExceptT.lift x.run : Attempt (Except Fault α)) >>= next) w Q E := by
  have hout : outcome ((ExceptT.lift x.run : Attempt (Except Fault α)) >>= next) w =
      (next (x.outcome w).1).outcome (x.outcome w).2 := outcome_bind (outcome_lift x.run w) next
  unfold Ends at hx ⊢
  rw [hout]
  cases hr : x.outcome w with
  | mk result w₁ =>
    rw [hr] at hx
    cases result with
    | ok a => exact hx
    | error fault => exact hx

/-- An attempt ends with a result or a fault of one kind, whatever becomes of the world. -/
def Yields (x : Attempt α) (w : World) (R : α → Prop) (E : Fault → Prop) : Prop :=
  x.Ends w (fun a _ => R a) fun fault _ => E fault

section
variable {Q : β → Prop} {R R' : α → Prop} {E F : Fault → Prop}

theorem Yields.mono {x : Attempt α} (hx : x.Yields w R E) (hR : ∀ a, R a → R' a) (hE : ∀ fault, E fault → F fault) :
    x.Yields w R' F :=
  Ends.mono hx (fun a _ => hR a) fun fault _ => hE fault

theorem Yields.bind {x : Attempt α} {next : α → Attempt β} (hx : x.Yields w R E)
    (hnext : ∀ a w₁, R a → (next a).Yields w₁ Q E) : (x >>= next).Yields w Q E :=
  Ends.bind hx hnext

theorem yields_tried {x : Attempt α} {next : Except Fault α → Attempt β} (hx : x.Yields w R E)
    (hok : ∀ a w₁, R a → (next (.ok a)).Yields w₁ Q F)
    (herror : ∀ fault w₁, E fault → (next (.error fault)).Yields w₁ Q F) :
    Yields ((ExceptT.lift x.run : Attempt (Except Fault α)) >>= next) w Q F :=
  ends_tried (Ends.mono hx hok herror)

theorem yields_bind_ok {ε : Type} {wrap : ε → Fault} {x : Except ε α} {next : α → Attempt β} {a : α} (hx : x = .ok a)
    (hnext : (next a).Yields w Q E) : (ofExcept wrap x >>= next).Yields w Q E := by
  subst hx
  exact hnext

theorem yields_bind_error {ε : Type} {wrap : ε → Fault} {x : Except ε α} {next : α → Attempt β} {e : ε}
    (hx : x = .error e) (he : E (wrap e)) : (ofExcept wrap x >>= next).Yields w Q E := by
  subst hx
  exact he

/-- What an attempt goes on with, if its first part only looks, is what that sees in the same world. -/
theorem Looks.yields_bind {x : Attempt α} {next : α → Attempt β} (hlooks : x.Looks) (hx : x.Yields w R E)
    (hnext : ∀ a, x.value w = .ok a → R a → (next a).Yields w Q E) : (x >>= next).Yields w Q E := by
  refine hlooks.ends_bind (fun fault hfault => ?_) fun a ha => ?_
  · exact hx.of_error ((hlooks.outcome_eq w).trans (congrArg (·, w) hfault))
  · exact hnext a ha (hx.of_ok ((hlooks.outcome_eq w).trans (congrArg (·, w) ha)))

theorem Looks.yields_value {x : Attempt α} (hlooks : x.Looks) (hx : x.Yields w R E) :
    x.Yields w (fun a => x.value w = .ok a ∧ R a) E := by
  have hbind : (x >>= pure).Yields w (fun a => x.value w = .ok a ∧ R a) E :=
    hlooks.yields_bind hx fun a ha hR => ends_pure ⟨ha, hR⟩
  rwa [bind_pure] at hbind

theorem Looks.yields_mapM {f : α → Attempt β} (hlooks : ∀ a, (f a).Looks) {as : List α}
    (h : ∀ a ∈ as, (f a).Yields w Q E) : (as.mapM f).Yields w (fun bs => ∀ b ∈ bs, Q b) E := by
  induction as with
  | nil => exact ends_pure (fun b hb => absurd hb List.not_mem_nil)
  | cons a as ih =>
    rw [List.mapM_cons]
    refine (hlooks a).yields_bind (h a List.mem_cons_self) fun b _ hb => ?_
    refine (Looks.mapM hlooks as).yields_bind (ih fun a ha => h a (List.mem_cons_of_mem _ ha)) fun bs _ hbs => ?_
    exact ends_pure (List.forall_mem_cons.mpr ⟨hb, hbs⟩)

theorem Looks.yields_foldlM {f : β → α → Attempt β} (hlooks : ∀ b a, (f b a).Looks) {as : List α}
    (h : ∀ b, ∀ a ∈ as, Q b → (f b a).Yields w Q E) : ∀ b, Q b → (as.foldlM f b).Yields w Q E := by
  induction as with
  | nil => exact fun b hb => ends_pure hb
  | cons a as ih =>
    intro b hb
    rw [List.foldlM_cons]
    refine (hlooks b a).yields_bind (h b a List.mem_cons_self hb) fun b' _ hb' => ?_
    exact ih (fun b a ha => h b a (List.mem_cons_of_mem _ ha)) b' hb'

/-- An attempt that ends with no fault has a result. -/
theorem Yields.exists_ok {x : Attempt α} (hx : x.Yields w R fun _ => False) :
    ∃ a w', x.outcome w = (.ok a, w') ∧ R a := by
  cases hout : x.outcome w with
  | mk result w' =>
    cases result with
    | error fault => exact (hx.of_error hout).elim
    | ok a => exact ⟨a, w', rfl, hx.of_ok hout⟩

end

/-- Writing a line into the journal never fails. -/
theorem ends_journal {next : Attempt β} (e : Event)
    (h : next.Ends { w with journal := w.journal ++ [e.line w.clock] } Q E) :
    (journal e >>= fun _ => next).Ends w Q E := h

end Attempt

/-! ## Files before and after -/

namespace Tree

variable {t t' t'' : Tree} {cwd here there : Location} {p : Path} {chars : List Char}

/-- At a location is what was there, or a new directory. -/
def SameAt (t t' : Tree) (here : Location) : Prop :=
  t'.entry? here = t.entry? here ∨ t.entry? here = none ∧ t'.entry? here = some .directory

theorem SameAt.trans (h : t.SameAt t' here) (h' : t'.SameAt t'' here) : t.SameAt t'' here := by
  rcases h' with h' | ⟨hnone, hdirectory⟩
  · rcases h with h | ⟨hnone, hdirectory⟩
    · exact .inl (h'.trans h)
    · exact .inr ⟨hnone, h'.trans hdirectory⟩
  · rcases h with h | ⟨-, hdirectory'⟩
    · exact .inr ⟨h ▸ hnone, hdirectory⟩
    · rw [hnone] at hdirectory'
      cases hdirectory'

/-- Making directories changes no file. -/
theorem sameAt_makeDirs (t : Tree) (cwd : Location) (p : Path) (there : Location) :
    t.SameAt (t.makeDirs cwd p).1 there := by
  refine makeDirsFrom_induct (P := fun u => t.SameAt u there) (fun front _ u u' hu hmake => ?_) t (.inl rfl)
  refine hu.trans ?_
  obtain ⟨here, -, ⟨-, rfl⟩ | ⟨hnone, rfl⟩⟩ := makeDir_eq_ok.mp hmake
  · exact .inl rfl
  · by_cases hthere : there = here
    · subst hthere
      have hroot : there ≠ [] := by
        rintro rfl
        cases hnone
      exact .inr ⟨hnone, place_entry_self hroot _⟩
    · exact .inl (place_entry_of_ne hthere _)

/-- A write puts its text into the file where the path leads, or no file has changed. -/
theorem write_effect (t : Tree) (cwd : Location) (p : Path) (text : Text) :
    (∃ fault, (t.write cwd p text).2 = some fault ∧ ∀ there, t.SameAt (t.write cwd p text).1 there) ∨
      ∃ here chars, (t.write cwd p text).2 = none ∧ text = Text.ofChars chars ∧
        (t.write cwd p text).1.locate cwd p = .ok here ∧
          Tree.entry? (t.write cwd p text).1 here = some (.file (.text chars)) ∧
            ∀ there, there ≠ here → t.SameAt (t.write cwd p text).1 there := by
  have hsame := sameAt_makeDirs t cwd p.parent
  rcases write_cases t cwd p text with ⟨fault, hwrite⟩ | ⟨here, chars, hlocate, hchars, hentry, hwrite⟩
  · rw [hwrite]
    exact .inl ⟨fault, rfl, hsame⟩
  · rw [hwrite]
    have hroot : here ≠ [] := by
      rintro rfl
      exact hentry rfl
    obtain ⟨hfit, hshort, hfollow⟩ := locate_eq_ok.mp hlocate
    refine .inr ⟨here, chars, rfl, Text.isWhole_of_chars? hchars,
      locate_eq_ok.mpr ⟨hfit, hshort, follow_place hentry _ hfollow⟩, place_entry_self hroot _, fun there hne => ?_⟩
    exact (hsame there).trans (.inl (place_entry_of_ne hne _))

end Tree

/-- No file has changed. -/
structure World.SameFiles (w w' : World) : Prop where
  cwd : w'.cwd = w.cwd
  files : ∀ here, w.tree.SameAt w'.tree here

/-- A text stands in a file, and no other file has changed. -/
structure World.Puts (w w' : World) (here : Location) (chars : List Char) : Prop where
  cwd : w'.cwd = w.cwd
  file : w'.tree.entry? here = some (.file (.text chars))
  others : ∀ there, there ≠ here → w.tree.SameAt w'.tree there

/-- A text was written for a path, to the place where the sandbox has it written, and no other file has changed. -/
structure Sandbox.Writes (s : Sandbox) (w w' : World) (p : Path) (text : Text) (destination : Path) : Prop where
  resolved : s.resolve p = .ok destination
  put : ∃ here chars, w'.tree.locate w'.cwd destination = .ok here ∧ text = Text.ofChars chars ∧ w.Puts w' here chars

section
variable {w w' w'' : World} {here : Location} {chars : List Char} {s : Sandbox} {p destination : Path} {text : Text}

theorem World.SameFiles.refl (w : World) : w.SameFiles w := ⟨rfl, fun _ => .inl rfl⟩

theorem World.SameFiles.puts (h : w.SameFiles w') (h' : w'.Puts w'' here chars) : w.Puts w'' here chars :=
  ⟨h'.cwd.trans h.cwd, h'.file, fun there hne => (h.files there).trans (h'.others there hne)⟩

theorem World.SameFiles.trans (h : w.SameFiles w') (h' : w'.SameFiles w'') : w.SameFiles w'' :=
  ⟨h'.cwd.trans h.cwd, fun there => (h.files there).trans (h'.files there)⟩

theorem Sandbox.Writes.of_sameFiles (h : w.SameFiles w') (h' : s.Writes w' w'' p text destination) :
    s.Writes w w'' p text destination := by
  obtain ⟨hresolved, here, chars, hlocate, htext, hput⟩ := h'
  exact ⟨hresolved, here, chars, hlocate, htext, h.puts hput⟩

/-- The journal is no file. -/
theorem Sandbox.Writes.journal (h : s.Writes w w' p text destination) (lines : List Text) :
    s.Writes w { w' with journal := lines } p text destination := by
  obtain ⟨hresolved, here, chars, hlocate, htext, hcwd, hfile, hothers⟩ := h
  exact ⟨hresolved, here, chars, hlocate, htext, hcwd, hfile, hothers⟩

end

/-- A write puts its text into the file where the path leads, or no file has changed. -/
theorem Attempt.ends_writeText (p : Path) (text : Text) (w : World) :
    (Attempt.writeText p text).Ends w
      (fun _ w' => ∃ here chars, w'.tree.locate w'.cwd p = .ok here ∧ text = Text.ofChars chars ∧ w.Puts w' here chars)
      fun _ w' => w.SameFiles w' := by
  let put (w' : World) : Prop :=
    ∃ here chars, w'.tree.locate w'.cwd p = .ok here ∧ text = Text.ofChars chars ∧ w.Puts w' here chars
  let answered : Option FileFault → World → Prop
    | none, w' => put w'
    | some _, w' => w.SameFiles w'
  refine Attempt.Ends.bind (R := answered) ?_ fun answer w' h => ?_
  · change answered (w.tree.write w.cwd p text).2 { w with tree := (w.tree.write w.cwd p text).1 }
    rcases Tree.write_effect w.tree w.cwd p text with
      ⟨fault, hrefused, hsame⟩ | ⟨here, chars, hdone, htext, hlocate, hfile, hothers⟩
    · rw [hrefused]
      exact ⟨rfl, hsame⟩
    · rw [hdone]
      exact ⟨here, chars, hlocate, htext, rfl, hfile, hothers⟩
  · cases answer with
    | none => exact Attempt.ends_pure h
    | some fault => exact Attempt.ends_throw h

/-! ## Sandboxes -/

namespace Sandbox

variable (s : Sandbox) (w : World) (p : Path)

theorem looks_isThereIn : ∀ places : List Path, (isThereIn places).Looks
  | [] => Attempt.looks_pure false
  | p :: rest => by
    refine (Attempt.looks_isThere p).bind fun found => ?_
    cases found with
    | true => exact Attempt.looks_pure true
    | false => exact looks_isThereIn rest

theorem looks_isThere : (s.isThere p).Looks :=
  (Attempt.looks_ofExcept .file _).bind fun places => looks_isThereIn places

theorem looks_readIn (asked : Path) : ∀ places : List Path, (readIn asked places).Looks
  | [] => Attempt.looks_throw _
  | p :: rest => by
    refine (Attempt.looks_isFile p).bind fun isFile => ?_
    cases isFile with
    | true => exact Attempt.looks_readText p
    | false => exact looks_readIn asked rest

theorem looks_readText : (s.readText p).Looks :=
  (Attempt.looks_ofExcept .file _).bind fun places => looks_readIn p places

/-- A write through a sandbox puts its text into one file, or no file has changed. -/
theorem ends_writeText (text : Text) :
    (s.writeText p text).Ends w (fun destination w' => s.Writes w w' p text destination) fun _ w' => w.SameFiles w' := by
  refine (Attempt.looks_ofExcept .file _).ends_bind (fun _ _ => .refl w) fun destination hvalue => ?_
  have hresolve := Attempt.value_ofExcept_eq_ok hvalue
  refine (Attempt.ends_writeText destination text w).bind fun _ w' hput => ?_
  exact Attempt.ends_pure ⟨hresolve, hput⟩

end Sandbox

end Regraft

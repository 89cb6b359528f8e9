import Regraft.Proofs.Files.Mirror
/-!
# Dry runs

What a program asks of a sandbox, one call after the other, and what it gets: a run with a live sandbox is compared with
one in which the sandbox has an empty directory for its root.

* `World.Mirrors.step`: a call comes to the same in both, and leaves the trees laid over each other as they were;
* `replies_alike`: so does a whole run, and outside of the root nothing changes in the dry one.
-/
namespace Regraft

/-! ## What looking comes to -/

namespace Sandbox

variable (w : World) (asked p : Path) (rest : List Path)

theorem value_isThereIn_cons : (isThereIn (p :: rest)).value w =
    match w.tree.see w.cwd p with
    | .error fault => .error (.file fault)
    | .ok (some _) => .ok true
    | .ok none => (isThereIn rest).value w := by
  rw [isThereIn, (Attempt.looks_isThere p).value_bind, Attempt.value_isThere, Tree.probe_eq_see]
  cases w.tree.see w.cwd p with
  | error fault => rfl
  | ok e => cases e <;> rfl

theorem value_readIn_cons : (readIn asked (p :: rest)).value w =
    match w.tree.see w.cwd p with
    | .error fault => .error (.file fault)
    | .ok (some (.file (.text chars))) => .ok (Text.ofChars chars)
    | .ok (some (.file (.bytes _))) => .error .undecodable
    | .ok _ => (readIn asked rest).value w := by
  rw [readIn, (Attempt.looks_isFile p).value_bind, Attempt.value_isFile, Tree.probe_eq_see]
  cases hsee : w.tree.see w.cwd p with
  | error fault => rfl
  | ok e =>
    match e with
    | none | some .directory => rfl
    | some (.file content) =>
      refine (Attempt.value_readText p).trans ?_
      rw [Tree.read_of_see hsee]
      cases content <;> rfl

end Sandbox

/-- Two attempts come to the same, or are both refused because a name or a path is too long. -/
def Alike {α : Type} (a b : Except Fault α) : Prop :=
  a = b ∨ ∃ path path', a = .error (.file (.nameTooLong path)) ∧ b = .error (.file (.nameTooLong path'))

theorem Alike.map {α β : Type} {a b : Except Fault α} (h : Alike a b) (f : α → β) : Alike (a.map f) (b.map f) := by
  rcases h with rfl | ⟨path, path', rfl, rfl⟩
  · exact .inl rfl
  · exact .inr ⟨path, path', rfl, rfl⟩

section
variable {w w' : World} {p mirrored : Path}

theorem alike_isThere (h : Tree.Sees (w.tree.see w.cwd p) (w'.tree.see w'.cwd mirrored) (w'.tree.see w'.cwd p)) :
    Alike ((Sandbox.isThereIn [p]).value w) ((Sandbox.isThereIn [mirrored, p]).value w') := by
  simp only [Sandbox.value_isThereIn_cons]
  generalize w.tree.see w.cwd p = live, w'.tree.see w'.cwd mirrored = dry, w'.tree.see w'.cwd p = behind at h
  cases h with
  | entries d s kinds => cases d <;> exact .inl rfl
  | tooLong path path' behind => exact .inr ⟨path, path', rfl, rfl⟩
  | tooLongBehind path path' => exact .inr ⟨path, path', rfl, rfl⟩

theorem alike_readText (asked : Path)
    (h : Tree.Sees (w.tree.see w.cwd p) (w'.tree.see w'.cwd mirrored) (w'.tree.see w'.cwd p)) :
    Alike ((Sandbox.readIn asked [p]).value w) ((Sandbox.readIn asked [mirrored, p]).value w') := by
  simp only [Sandbox.value_readIn_cons]
  generalize w.tree.see w.cwd p = live, w'.tree.see w'.cwd mirrored = dry, w'.tree.see w'.cwd p = behind at h
  cases h with
  | tooLong path path' behind => exact .inr ⟨path, path', rfl, rfl⟩
  | tooLongBehind path path' => exact .inr ⟨path, path', rfl, rfl⟩
  | entries d s kinds =>
    cases d with
    | none => exact .inl rfl
    | some e =>
      cases e with
      | file content => cases content <;> exact .inl rfl
      | directory =>
        -- A directory in the mirror hides no file behind it.
        cases s with
        | none => exact .inl rfl
        | some f =>
          rw [Entry.eq_directory (kinds _ _ rfl rfl).symm]
          exact .inl rfl

end

/-! ## Calls -/

/-- What is asked of a sandbox. -/
inductive Call where
  | write (p : Path) (text : Text)
  | read (p : Path)
  | isThere (p : Path)

/-- What comes back; where a text was written to is left out. -/
inductive Reply where
  | written
  | text (t : Text)
  | there (found : Bool)
  deriving DecidableEq

namespace Call

/-- The path that a call is about. -/
def path : Call → Path
  | write p _ => p
  | read p => p
  | isThere p => p

/-- Something is to be written. -/
def isWrite : Call → Bool
  | write .. => true
  | _ => false

/-- The bytes by which the path gets longer while the call is made. -/
def extra : Call → Nat
  | write .. => Tree.scratchNameExtra
  | _ => 0

/-- Makes a call. -/
def make (s : Sandbox) : Call → Attempt Reply
  | write p text => do
    let _ ← s.writeText p text
    return .written
  | read p => return .text (← s.readText p)
  | isThere p => return .there (← s.isThere p)

/-- What comes back for a call. -/
def reply (s : Sandbox) (c : Call) (w : World) : Except Fault Reply := (c.make s).value w

/-- The world behind a call. -/
def next (s : Sandbox) (c : Call) (w : World) : World := ((c.make s).outcome w).2

/-- A call for a path outside of a root; if the path is short enough for the call, so is the path that mirrors it. -/
structure IsFor (root : Path) (c : Call) : Prop where
  mirrored : Tree.Mirrored root c.path
  room : c.path.toText.bytes.length + c.extra ≤ Tree.longestPath →
    (Tree.behind root c.path.names).toText.bytes.length + c.extra ≤ Tree.longestPath

instance (root : Path) (c : Call) : Decidable (c.IsFor root) :=
  decidable_of_iff (((c.path.isAbsolute = true ∧ parentName ∉ c.path.names) ∧ c.path.unfit? = none ∧
    ¬root.names <+: c.path.names) ∧ (c.path.toText.bytes.length + c.extra ≤ Tree.longestPath →
      (Tree.behind root c.path.names).toText.bytes.length + c.extra ≤ Tree.longestPath))
    ⟨fun ⟨⟨⟨habsolute, hplain⟩, hfit, hout⟩, hroom⟩ => ⟨⟨⟨habsolute, hplain⟩, hfit, hout⟩, hroom⟩,
      fun ⟨⟨⟨habsolute, hplain⟩, hfit, hout⟩, hroom⟩ => ⟨⟨⟨habsolute, hplain⟩, hfit, hout⟩, hroom⟩⟩

end Call

theorem Sandbox.resolve_of_mirrored {root p : Path} (hp : Tree.Mirrored root p) (cwd : Location) :
    Sandbox.resolve ⟨some root, cwd⟩ p = .ok (Tree.behind root p.names) := by
  simp only [Sandbox.resolve, Path.absolute, hp.fit, hp.direct.absolute, if_true,
    Path.takeStepsUp_of_plain hp.direct.plain]
  rfl

theorem Sandbox.searchRoots_of_mirrored {root p : Path} (hp : Tree.Mirrored root p) (cwd : Location) :
    Sandbox.searchRoots ⟨some root, cwd⟩ p = .ok [Tree.behind root p.names, p] := by
  simp only [Sandbox.searchRoots, Sandbox.resolve_of_mirrored hp cwd]
  rfl

namespace Call

variable {s : Sandbox} {w : World} {p q : Path} {text : Text} {tree : Tree}

/-- A text is written where the sandbox has it written. -/
theorem outcome_write (hresolve : s.resolve p = .ok q) (h : w.tree.write w.cwd q text = (tree, none)) :
    ((write p text).make s).outcome w = (.ok .written, { w with tree }) := by
  have hwrite : (s.writeText p text).outcome w = (.ok q, { w with tree }) :=
    (Attempt.outcome_bind (Attempt.outcome_ofExcept .file hresolve w) _).trans
      (Attempt.outcome_bind (Attempt.outcome_writeText h) _)
  exact Attempt.outcome_bind hwrite _

/-- A write that came back was done. -/
theorem exists_of_reply_write (hresolve : s.resolve p = .ok q) (h : (write p text).reply s w = .ok .written) :
    ∃ tree, w.tree.write w.cwd q text = (tree, none) := by
  cases hwrite : w.tree.write w.cwd q text with
  | mk tree fault =>
    cases fault with
    | none => exact ⟨tree, rfl⟩
    | some fault =>
      have hrefused : (Attempt.writeText q text).outcome w = (.error (.file fault), { w with tree }) := by
        refine (Attempt.outcome_bind (Attempt.outcome_request (.write q text) w) _).trans ?_
        simp only [World.answer, hwrite]
        rfl
      have hsandbox : (s.writeText p text).outcome w = (.error (.file fault), { w with tree }) :=
        (Attempt.outcome_bind (Attempt.outcome_ofExcept .file hresolve w) _).trans
          (Attempt.outcome_bind_error hrefused _)
      have hmake : ((write p text).make s).outcome w = (.error (.file fault), { w with tree }) :=
        Attempt.outcome_bind_error hsandbox _
      rw [reply, Attempt.value, hmake] at h
      cases h

/-- A call that asks for nothing to be written changes nothing. -/
theorem next_of_not_write {c : Call} (h : c.isWrite = false) : c.next s w = w := by
  cases c with
  | write p text => cases h
  | read p => exact ((s.looks_readText p).bind fun _ => Attempt.looks_pure _) w
  | isThere p => exact ((s.looks_isThere p).bind fun _ => Attempt.looks_pure _) w

theorem reply_read {places : List Path} (hplaces : s.searchRoots p = .ok places) :
    (read p).reply s w = ((Sandbox.readIn p places).value w).map Reply.text := by
  have hread : (s.readText p).value w = (Sandbox.readIn p places).value w := by
    rw [Sandbox.readText, hplaces]
    rfl
  rw [reply, make, (s.looks_readText p).value_bind, hread]
  cases (Sandbox.readIn p places).value w <;> rfl

theorem reply_isThere {places : List Path} (hplaces : s.searchRoots p = .ok places) :
    (isThere p).reply s w = ((Sandbox.isThereIn places).value w).map Reply.there := by
  have hthere : (s.isThere p).value w = (Sandbox.isThereIn places).value w := by
    rw [Sandbox.isThere, hplaces]
    rfl
  rw [reply, make, (s.looks_isThere p).value_bind, hthere]
  cases (Sandbox.isThereIn places).value w <;> rfl

end Call

/-! ## Steps and runs -/

/-- The world of a live run and that of a dry one with a root. -/
structure World.Mirrors (root : Path) (start live dry : World) : Prop where
  trees : Tree.Mirrors root.names start.tree live.tree dry.tree
  live : live.cwd = start.cwd
  dry : dry.cwd = start.cwd

variable {root : Path} {start live dry : World} {c : Call}

/-- A call comes to the same in both worlds, if the live one does not refuse to write, and they stay such worlds. -/
theorem World.Mirrors.step (h : World.Mirrors root start live dry) (hroot : Tree.IsBase root) (hc : c.IsFor root)
    (hwrite : c.isWrite = true → c.reply (.live start.cwd) live = .ok .written) :
    Alike (c.reply (.live start.cwd) live) (c.reply ⟨some root, start.cwd⟩ dry) ∧
      World.Mirrors root start (c.next (.live start.cwd) live) (c.next ⟨some root, start.cwd⟩ dry) := by
  cases c with
  | write p text =>
    have hp : Tree.Mirrored root p := hc.mirrored
    obtain ⟨tree, hlive⟩ := Call.exists_of_reply_write (s := .live start.cwd) rfl (hwrite rfl)
    obtain ⟨tree', hdry, htrees⟩ := h.trees.write hroot hp hc.room hlive
    rw [h.live, ← h.dry] at hdry
    have hlive' := Call.outcome_write (s := .live start.cwd) rfl hlive
    have hdry' := Call.outcome_write (Sandbox.resolve_of_mirrored hp start.cwd) hdry
    refine ⟨.inl ((congrArg Prod.fst hlive').trans (congrArg Prod.fst hdry').symm), ?_⟩
    rw [Call.next, Call.next, hlive', hdry']
    exact ⟨htrees, h.live, h.dry⟩
  | read p =>
    have hp : Tree.Mirrored root p := hc.mirrored
    have hseen := h.trees.see hroot hp hc.room start.cwd
    rw [Call.next_of_not_write rfl, Call.next_of_not_write rfl, Call.reply_read (s := .live start.cwd) rfl,
      Call.reply_read (Sandbox.searchRoots_of_mirrored hp start.cwd)]
    refine ⟨(alike_readText p ?_).map _, h⟩
    rwa [h.live, h.dry]
  | isThere p =>
    have hp : Tree.Mirrored root p := hc.mirrored
    have hseen := h.trees.see hroot hp hc.room start.cwd
    rw [Call.next_of_not_write rfl, Call.next_of_not_write rfl, Call.reply_isThere (s := .live start.cwd) rfl,
      Call.reply_isThere (Sandbox.searchRoots_of_mirrored hp start.cwd)]
    refine ⟨(alike_isThere ?_).map _, h⟩
    rwa [h.live, h.dry]

/-- What comes back for calls, one after the other. -/
def replies (s : Sandbox) : List Call → World → List (Except Fault Reply)
  | [], _ => []
  | c :: calls, w => c.reply s w :: replies s calls (c.next s w)

/-- The world behind calls. -/
def worldAfter (s : Sandbox) (calls : List Call) (w : World) : World := calls.foldl (fun w c => c.next s w) w

/-- The calls of a run come to the same in both worlds, and every step of it leaves them such worlds. -/
theorem World.Mirrors.run (hroot : Tree.IsBase root) {calls : List Call} : ∀ {live dry : World},
    World.Mirrors root start live dry → (∀ c ∈ calls, c.IsFor root) →
    List.Forall₂ (fun c reply => c.isWrite = true → reply = .ok .written) calls (replies (.live start.cwd) calls live) →
    List.Forall₂ Alike (replies (.live start.cwd) calls live) (replies ⟨some root, start.cwd⟩ calls dry) ∧
      ∀ n, World.Mirrors root start (worldAfter (.live start.cwd) (calls.take n) live)
        (worldAfter ⟨some root, start.cwd⟩ (calls.take n) dry) := by
  induction calls with
  | nil => exact fun h _ _ => ⟨.nil, fun n => by simpa [worldAfter] using h⟩
  | cons c calls ih =>
    intro live dry h hcalls hwrites
    obtain ⟨hc, hcalls⟩ := List.forall_mem_cons.mp hcalls
    obtain ⟨hwrite, hwrites⟩ := List.forall₂_cons.mp hwrites
    obtain ⟨hreply, hnext⟩ := h.step hroot hc hwrite
    obtain ⟨hreplies, hworlds⟩ := ih hnext hcalls hwrites
    refine ⟨.cons hreply hreplies, fun n => ?_⟩
    cases n with
    | zero => exact h
    | succ n => exact hworlds n

theorem Path.parentName_not_mem_takeStepsUp (names : List Text) : parentName ∉ takeStepsUp names := by
  induction names using List.reverseRecOn with
  | nil => exact List.not_mem_nil
  | append_singleton names last ih =>
    rw [takeStepsUp, List.foldl_append, List.foldl_cons, List.foldl_nil, ← takeStepsUp]
    split
    · exact fun hmem => ih (List.dropLast_subset _ hmem)
    · rename_i hlast
      exact fun hmem => (List.mem_append.mp hmem).elim ih fun hmem => hlast (List.mem_singleton.mp hmem).symm

end Regraft

import Regraft.Change
import Regraft.Proofs.Files.Live
import Regraft.Proofs.Splice.Content
/-!
# Applying and clearing a file, time and again

A file without guards, for which a version of recorded changes is selected, is in one of two states: with the version
or without. One step leads from either state to the one that it is named for, and changes nothing in a file that is
there already (`outcome_step`); so does every sequence of steps (`outcome_steps`).

* `steps_leave`: no sequence of steps fails, the file has the same bytes after every step of a kind, and a step that
  repeats the one before it writes nothing.
-/
namespace Regraft

/-- A step with a file. -/
inductive FileStep where
  | apply
  | clear
  deriving DecidableEq, Repr

/-- What a file holds after a step, if it holds one text with the version and another without. -/
def FileStep.leaves (before after : List Char) : FileStep → List Char
  | apply => after
  | clear => before

namespace Change

section
variable (s : Sandbox) (tag : Tag) (m : Matching Float) (p : Path) (versions : VersionSet)

/-- One step with a file. -/
def step : FileStep → Attempt (Change × Option Path)
  | .apply => applyFile s tag m p versions
  | .clear => clearFile s tag p

/-- Steps with a file, one after the other. -/
def steps : List FileStep → Attempt (List (Change × Option Path))
  | [] => return []
  | k :: ks => do
    let done ← step s tag m p versions k
    return done :: (← steps ks)

end

/-! ## One step -/

section
variable {w : World} {p : Path} {here : Location} {chars : List Char}

theorem outcome_commit_unchanged {c : Change} (h : c.changed = false) (s : Sandbox) (action : Action) (w : World) :
    Attempt.outcome (c.commit s action) w = (.ok none, w) := by
  unfold commit
  rw [h]
  rfl

/-- Committing a change puts its content into the file and a line into the journal. -/
theorem outcome_commit_live {c : Change} {new : List Char} (hw : w.tree.Keeps w.cwd c.path here chars)
    (hc : c.content = Text.ofChars new) (h : c.changed = true) (cwd : Location) (action : Action) :
    ∃ line, Attempt.outcome (c.commit (.live cwd) action) w =
      (.ok (some c.path), { w.place here new with journal := w.journal ++ [line] }) := by
  have hwrite := outcome_writeText_live hw cwd new
  rw [← hc] at hwrite
  unfold commit
  rw [h]
  exact ⟨_, Attempt.outcome_bind hwrite _⟩

theorem ofChars_inj {cs ds : List Char} (h : Text.ofChars cs = Text.ofChars ds) : cs = ds := by
  have hchars := congrArg Text.chars? h
  simpa using hchars

theorem changed_eq_false_iff {c : Change} {new : List Char} (hbefore : c.before = Text.ofChars chars)
    (hc : c.content = Text.ofChars new) : c.changed = false ↔ chars = new := by
  rw [changed, hbefore, hc, bne_eq_false_iff_eq]
  exact ⟨fun h => (ofChars_inj h).symm, fun h => by rw [h]⟩

/-- A change that is computed and committed leaves its content in the file, and writes nothing if that is there. -/
theorem outcome_committed {x : Attempt Change} {c : Change} {new : List Char}
    (hx : x.outcome w = (.ok c, w)) (hw : w.tree.Keeps w.cwd p here chars) (hp : c.path = p)
    (hbefore : c.before = Text.ofChars chars) (hc : c.content = Text.ofChars new) (cwd : Location) (action : Action) :
    ∃ written w', Attempt.outcome (do let change ← x; return (change, ← change.commit (.live cwd) action)) w =
        (.ok (c, written), w') ∧
      w'.cwd = w.cwd ∧ w'.tree.Keeps w'.cwd p here new ∧
      (chars = new → c.changed = false ∧ written = none ∧ w' = w) := by
  subst hp
  have hiff := changed_eq_false_iff hbefore hc
  cases hchanged : c.changed with
  | false =>
    have hsame := hiff.mp hchanged
    refine ⟨none, w, ?_, rfl, hsame ▸ hw, fun _ => ⟨rfl, rfl, rfl⟩⟩
    refine (Attempt.outcome_bind hx _).trans ?_
    exact Attempt.outcome_bind (outcome_commit_unchanged hchanged _ action w) _
  | true =>
    obtain ⟨line, hcommit⟩ := outcome_commit_live hw hc hchanged cwd action
    have hne : chars ≠ new := fun h => by simp [hiff.mpr h] at hchanged
    refine ⟨some c.path, { w.place here new with journal := w.journal ++ [line] }, ?_, rfl, hw.place new,
      fun h => absurd h hne⟩
    exact (Attempt.outcome_bind hx _).trans (Attempt.outcome_bind hcommit _)

end

/-! ## The two states -/

section
variable {tag : Tag} {m : Matching Float} {versions : VersionSet} {before after : List Char} {order : Int}
  {w : World} {p : Path} {here : Location} {chars : List Char}

/-- A step leads from either state to the one that it is named for. -/
theorem outcome_step (hp : Patched tag m versions (Text.ofChars before) (Text.ofChars after) order)
    (hw : w.tree.Keeps w.cwd p here chars) (hc : chars = before ∨ chars = after) (cwd : Location) (k : FileStep) :
    ∃ done w', Attempt.outcome (step (.live cwd) tag m p versions k) w = (.ok done, w') ∧
      w'.cwd = w.cwd ∧ w'.tree.Keeps w'.cwd p here (k.leaves before after) ∧
      (chars = k.leaves before after → done.1.changed = false ∧ done.2 = none ∧ w' = w) := by
  have hread := outcome_readText_live hw cwd
  cases k with
  | apply =>
    have happlied : appliedContent tag m versions (Text.ofChars chars) = .ok (Text.ofChars after, order) := by
      rcases hc with rfl | rfl
      · exact hp.apply
      · exact hp.reapply
    have hchange : Attempt.outcome (ofApply (.live cwd) tag m p versions) w =
        (.ok ⟨p, Text.ofChars chars, Text.ofChars after, some order⟩, w) := by
      refine (Attempt.outcome_bind hread _).trans ?_
      exact Attempt.outcome_bind (Attempt.outcome_ofExcept (.content p) happlied w) _
    obtain ⟨written, w', hrun, hrest⟩ := outcome_committed hchange hw rfl rfl rfl cwd .apply
    exact ⟨_, w', hrun, hrest⟩
  | clear =>
    have hcleared : clearedContent tag (Text.ofChars chars) = .ok (Text.ofChars before) := by
      rcases hc with rfl | rfl
      · exact hp.reclear
      · exact hp.clear
    have hchange : Attempt.outcome (ofClear (.live cwd) tag p) w =
        (.ok ⟨p, Text.ofChars chars, Text.ofChars before, none⟩, w) := by
      refine (Attempt.outcome_bind hread _).trans ?_
      exact Attempt.outcome_bind (Attempt.outcome_ofExcept (.content p) hcleared w) _
    obtain ⟨written, w', hrun, hrest⟩ := outcome_committed hchange hw rfl rfl rfl cwd .clear
    exact ⟨_, w', hrun, hrest⟩

/-- Steps lead to the state that the last one is named for. -/
theorem outcome_steps (hp : Patched tag m versions (Text.ofChars before) (Text.ofChars after) order)
    (cwd : Location) (ks : List FileStep) :
    ∀ {w : World} {chars : List Char}, w.tree.Keeps w.cwd p here chars → chars = before ∨ chars = after →
      ∃ done w', Attempt.outcome (steps (.live cwd) tag m p versions ks) w = (.ok done, w') ∧
        w'.tree.Keeps w'.cwd p here ((ks.getLast?.map (FileStep.leaves before after)).getD chars) := by
  induction ks with
  | nil => exact fun hw _ => ⟨[], _, rfl, hw⟩
  | cons k ks ih =>
    intro w chars hw hc
    obtain ⟨first, w₁, hfirst, -, hw₁, -⟩ := outcome_step hp hw hc cwd k
    have hstate : k.leaves before after = before ∨ k.leaves before after = after := by
      cases k with
      | apply => exact .inr rfl
      | clear => exact .inl rfl
    obtain ⟨rest, w₂, hrest, hw₂⟩ := ih hw₁ hstate
    refine ⟨first :: rest, w₂, (Attempt.outcome_bind hfirst _).trans (Attempt.outcome_bind hrest _), ?_⟩
    rw [List.getLast?_cons]
    cases hlast : ks.getLast? with
    | none => simpa [hlast] using hw₂
    | some last => simpa [hlast] using hw₂

end

/-! ## Files -/

/-- A record that was made of a file in which every carriage return ends a line, with any order stamped on it. -/
def RecordedInFile (tag : Tag) (r : Record) : Prop :=
  ∃ (chars : List Char) (segments : List Segment) (path : Text) (context : Nat) (order : Int),
    ReturnsEnd (Text.ofChars chars) ∧
      Segment.parse tag (Buffer.ofText (Text.ofChars chars)).lines = .ok segments ∧
      ∃ r₀ ∈ buildRecords (Buffer.ofText (Text.ofChars chars)).lines segments path context, r = { r₀ with order }

theorem isHalf_of_mem_ofChars {chars : List Char} : ∀ c ∈ Text.ofChars chars, c.isHalf = false := by
  intro c hc
  obtain ⟨d, -, rfl⟩ := List.mem_map.mp hc
  rfl

theorem exists_ofChars {t : Text} (h : ∀ c ∈ t, c.isHalf = false) : ∃ chars, Text.ofChars chars = t := by
  induction t with
  | nil => exact ⟨[], rfl⟩
  | cons c t ih =>
    obtain ⟨chars, hchars⟩ := ih fun d hd => h d (List.mem_cons_of_mem _ hd)
    cases c with
    | char d => exact ⟨d :: chars, by rw [← hchars]; rfl⟩
    | half place => cases h _ List.mem_cons_self

theorem RecordedInFile.recorded {tag : Tag} {r : Record} (h : RecordedInFile tag r) : Recorded InLine tag r := by
  obtain ⟨chars, segments, path, context, order, hreturns, hparse, hr⟩ := h
  exact ⟨_, segments, path, context, order, inLine_of_content hreturns isHalf_of_mem_ofChars, hparse, hr⟩

/-- Take a file without guards, for which a version of recorded changes is selected. Whatever steps are taken with it,
none of them fails. After applying, the file always holds one and the same text; after clearing, it holds what it held
at the start. A step that repeats the one before it finds nothing to change, and writes nothing. -/
theorem steps_leave {tag : Tag} (hid : tag.IsIdentifier) {before : List Char}
    (hreturns : ReturnsEnd (Text.ofChars before))
    (hplain : Segment.parse tag (Buffer.ofText (Text.ofChars before)).lines = .ok []) {versions : VersionSet}
    (hr : ∀ v ∈ versions.versions, ∀ r ∈ v.records, RecordedInFile tag r) {m : Matching Float} {target : Text}
    {selected : PlacedVersion Float}
    (hselect : m.select (Buffer.ofText (Text.ofChars before)).lines versions target = .ok selected) {w : World}
    {p : Path} (hread : w.tree.read w.cwd p = .ok (.text before))
    (hwrite : (w.tree.write w.cwd p (Text.ofChars before)).2 = none) :
    ∃ after : List Char, ∀ (ks : List FileStep) (k : FileStep), ∃ done change w₁ w₂,
      Attempt.outcome (steps (.live w.cwd) tag m p versions ks) w = (.ok done, w₁) ∧
      Attempt.outcome (step (.live w.cwd) tag m p versions k) w₁ = (.ok change, w₂) ∧
      w₂.tree.read w₂.cwd p = .ok (.text (k.leaves before after)) ∧
      (ks.getLast? = some k → change.1.changed = false ∧ change.2 = none ∧ w₂ = w₁) := by
  obtain ⟨here, hw⟩ := Tree.keeps_of_write hread hwrite
  obtain ⟨text, hpatched, hchars⟩ := exists_patched hid hreturns isHalf_of_mem_ofChars hplain
    (fun v hv r hmem => (hr v hv r hmem).recorded) hselect
  obtain ⟨after, rfl⟩ := exists_ofChars hchars
  refine ⟨after, fun ks k => ?_⟩
  obtain ⟨done, w₁, hdone, hw₁⟩ := outcome_steps hpatched w.cwd ks hw (.inl rfl)
  have hstate : (ks.getLast?.map (FileStep.leaves before after)).getD before = before ∨
      (ks.getLast?.map (FileStep.leaves before after)).getD before = after := by
    cases ks.getLast? with
    | none => exact .inl rfl
    | some last =>
      cases last with
      | apply => exact .inr rfl
      | clear => exact .inl rfl
  obtain ⟨change, w₂, hchange, -, hw₂, hagain⟩ := outcome_step hpatched hw₁ hstate w.cwd k
  refine ⟨done, change, w₁, w₂, hdone, hchange, hw₂.read, fun hlast => hagain ?_⟩
  rw [hlast]
  rfl

/-- A file with both kinds of line ends, and none at its end. -/
def sampleBefore : List Char := "int a;\r\nint c;\n  int b;".toList

/-- The file with an addition, and with its last line replaced. -/
def samplePlugin : List Char :=
  "int a;\r\n// Mod: Begin\r\nint x;\n// Mod: End\nint c;\n  // Mod- old\n  //int b;\nint y; // Mod".toList

/-- The changes of the file, in one version behind another one without changes. -/
def sampleStored : VersionSet :=
  let lines := (Buffer.ofText (Text.ofChars samplePlugin)).lines
  let segments := ((Segment.parse sampleTag lines).toOption).getD []
  ⟨"a.c", [⟨1, ⟨2023, 1, 1, 0, 0, 0, 0, none⟩, []⟩, ⟨2, ⟨2024, 1, 1, 0, 0, 0, 0, none⟩,
    (buildRecords lines segments "a.c" 1).map fun r => { r with order := 2 }⟩]⟩

/-- A world with the file alone. -/
def sampleWorld : World where
  tree := ⟨[(["a.c"], .file (.text sampleBefore))]⟩
  cwd := []
  scratchBase := []
  clock := ⟨2024, 1, 1, 0, 0, 0, 0, none⟩

theorem recorded_sampleStored : ∀ v ∈ sampleStored.versions, ∀ r ∈ v.records, RecordedInFile sampleTag r := by
  intro v hv r hr
  rcases List.mem_cons.mp hv with rfl | hv
  · cases hr
  · obtain rfl := List.mem_singleton.mp hv
    obtain ⟨r₀, hr₀, rfl⟩ := List.mem_map.mp hr
    exact ⟨samplePlugin, _, "a.c", 1, 2, by decide, by decide, r₀, hr₀, rfl⟩

theorem exists_select_sampleStored : ∃ selected, Matching.select ⟨0.5, none, exactSimilarity⟩
    (Buffer.ofText (Text.ofChars sampleBefore)).lines sampleStored [] = .ok selected := by
  have hscale : (sampleStored.versions.any fun v => Matching.meetsOffScale ⟨0.5, none, exactSimilarity⟩
      (Buffer.ofText (Text.ofChars sampleBefore)).lines v.records) = false := by
    decide
  exact Matching.exists_select hscale (Matching.mem_placeable.mpr ⟨_, List.mem_cons_self, rfl⟩) []

theorem steps_leave_sample :
    sampleTag.IsIdentifier ∧ ReturnsEnd (Text.ofChars sampleBefore) ∧
      Segment.parse sampleTag (Buffer.ofText (Text.ofChars sampleBefore)).lines = .ok [] ∧
      sampleWorld.tree.read sampleWorld.cwd ⟨.relative, ["a.c"]⟩ = .ok (.text sampleBefore) ∧
      (sampleWorld.tree.write sampleWorld.cwd ⟨.relative, ["a.c"]⟩ (Text.ofChars sampleBefore)).2 = none ∧
      ∃ after : List Char, ∀ (ks : List FileStep) (k : FileStep), ∃ done change w₁ w₂,
        Attempt.outcome (steps (.live sampleWorld.cwd) sampleTag ⟨0.5, none, exactSimilarity⟩ ⟨.relative, ["a.c"]⟩
          sampleStored ks) sampleWorld = (.ok done, w₁) ∧
        Attempt.outcome (step (.live sampleWorld.cwd) sampleTag ⟨0.5, none, exactSimilarity⟩ ⟨.relative, ["a.c"]⟩
          sampleStored k) w₁ = (.ok change, w₂) ∧
        w₂.tree.read w₂.cwd ⟨.relative, ["a.c"]⟩ = .ok (.text (k.leaves sampleBefore after)) ∧
        (ks.getLast? = some k → change.1.changed = false ∧ change.2 = none ∧ w₂ = w₁) := by
  have hid : sampleTag.IsIdentifier := by unfold Tag.IsIdentifier; decide
  have hreturns : ReturnsEnd (Text.ofChars sampleBefore) := by decide
  have hplain : Segment.parse sampleTag (Buffer.ofText (Text.ofChars sampleBefore)).lines = .ok [] := by decide
  have hread : sampleWorld.tree.read sampleWorld.cwd ⟨.relative, ["a.c"]⟩ = .ok (.text sampleBefore) := by rfl
  have hwrite : (sampleWorld.tree.write sampleWorld.cwd ⟨.relative, ["a.c"]⟩ (Text.ofChars sampleBefore)).2 =
      none := by rfl
  obtain ⟨selected, hselect⟩ := exists_select_sampleStored
  exact ⟨hid, hreturns, hplain, hread, hwrite,
    steps_leave hid hreturns hplain recorded_sampleStored hselect hread hwrite⟩

end Change

end Regraft

import Regraft.Proofs.Fallible
import Regraft.Proofs.Files.Closed
import Regraft.Proofs.Files.Fit
/-!
# Trees laid over each other

A sandbox with a root writes to a copy below that root and looks there first. A live tree and a dry one that come from one
tree are compared (`Tree.Mirrors`): outside of the root, the dry tree is the one from the start, and the live tree is that
with what stands below the root laid over it.

* `Tree.Mirrors.see`: the live tree shows what the dry one shows in one of two places;
* `Tree.Mirrors.write`: a text that is written in both leaves them laid over each other.
-/
namespace Regraft

theorem Entry.eq_directory {e : Entry} (h : e.kind = Entry.directory.kind) : e = .directory := by
  cases e with
  | file content => cases h
  | directory => rfl

/-! ## Copies -/

/-- Where a sandbox has a directory and what is in it. -/
def Sandbox.mirror (s : Sandbox) (p : Path) : Path :=
  match s.root with
  | none => p
  | some root => ⟨root.root, root.names ++ Path.takeStepsUp (if p.isAbsolute then p.names else s.cwd ++ p.names)⟩

/-- What is behind a path has its copy behind the copy of the path. -/
theorem Sandbox.resolve_behind {s : Sandbox} {p q : Path} {names : List Text} (hparent : parentName ∉ names)
    (h : s.resolve (Tree.behind p names) = .ok q) : q = Tree.behind (s.mirror p) names := by
  unfold resolve at h
  unfold mirror
  cases hroot : s.root with
  | none =>
    rw [hroot] at h
    exact (Except.ok.inj h).symm
  | some root =>
    rw [hroot] at h
    obtain ⟨there, hthere, rfl⟩ := map_eq_ok.mp h
    have hnames : there.names =
        Path.takeStepsUp (if p.isAbsolute then p.names else s.cwd ++ p.names) ++ names := by
      rw [Path.absolute_eq_ok hthere, ← Path.takeStepsUp_append hparent]
      cases hp : p.isAbsolute <;> simp_all [Tree.behind, Path.isAbsolute]
    simp only [Tree.behind, hnames, List.append_assoc]

theorem Sandbox.resolve_child {s : Sandbox} {p q : Path} {name : Text} (hname : name ≠ parentName)
    (h : s.resolve (p.child name) = .ok q) : q = (s.mirror p).child name :=
  resolve_behind (by simpa using Ne.symm hname) h

namespace Tree

variable {t : Tree} {cwd here : Location} {p : Path} {path : Text} {names : List Text}

/-! ## Seeing -/

/-- What is at the end of names; only a name that is too long is a fault. -/
def seeFrom (t : Tree) (path : Text) (here : Location) (names : List Text) : Except FileFault (Option Entry) :=
  match t.follow path here names with
  | .error (.nameTooLong path) => .error (.nameTooLong path)
  | .error _ => .ok none
  | .ok here => .ok (t.entry? here)

/-- What is at the end of a path; only a path that is too long is a fault. -/
def see (t : Tree) (cwd : Location) (p : Path) : Except FileFault (Option Entry) :=
  match t.locate cwd p with
  | .error (.nameTooLong path) => .error (.nameTooLong path)
  | .error _ => .ok none
  | .ok here => .ok (t.entry? here)

theorem probe_eq_see (t : Tree) (cwd : Location) (p : Path) :
    t.probe cwd p = (t.see cwd p).map (Option.map Entry.kind) := by
  unfold probe see
  split <;> simp_all [Except.map]

theorem read_of_see {content : Content} (h : t.see cwd p = .ok (some (.file content))) :
    t.read cwd p = .ok content := by
  unfold see at h
  split at h
  · cases h
  · cases h
  · rename_i here hlocate
    simp [Tree.read, hlocate, Except.ok.inj h, bind, Except.bind, pure, Except.pure]

/-- Nothing is seen behind what is not there. -/
theorem seeFrom_of_none (h : t.entry? here = none) : t.seeFrom path here names = .ok none := by
  cases names with
  | nil => simp [seeFrom, follow, h]
  | cons name names => simp [seeFrom, follow, h]

/-- A name that is too long is noticed in a directory; otherwise one sees what is behind it, if anything is. -/
theorem seeFrom_cons (hclosed : t.Closed) {name : Text} (hplain : name ≠ parentName) :
    t.seeFrom path here (name :: names) =
      if t.entry? here = some .directory ∧ longestName < name.bytes.length then .error (.nameTooLong path)
      else t.seeFrom path (here ++ [name]) names := by
  cases hentry : t.entry? here with
  | none =>
    have hnone : t.entry? (here ++ [name]) = none :=
      hclosed.entry?_eq_none (List.cons_ne_nil _ _) (by rw [hentry]; exact Option.some_ne_none _ |>.symm)
    rw [seeFrom_of_none hentry, seeFrom_of_none hnone]
    simp
  | some e =>
    cases e with
    | file content =>
      have hnone : t.entry? (here ++ [name]) = none :=
        hclosed.entry?_eq_none (List.cons_ne_nil _ _) (by rw [hentry]; simp)
      rw [seeFrom_of_none hnone]
      simp [seeFrom, follow, hentry]
    | directory =>
      by_cases hlong : longestName < name.bytes.length
      · simp [seeFrom, follow, hentry, hlong]
      · simp [seeFrom, follow, hentry, hlong, hplain]

theorem see_eq (hp : p.IsDirect) (hfit : p.unfit? = none) : t.see cwd p =
    if longestPath < p.toText.bytes.length then .error (.nameTooLong p.toText)
    else t.seeFrom p.toText [] p.names := by
  unfold see locate seeFrom
  simp only [hfit, hp.absolute, if_true]
  by_cases hlong : longestPath < p.toText.bytes.length
  · simp only [if_pos hlong]
  · simp only [if_neg hlong]

/-! ## Trees laid over each other -/

/-- A live tree and a dry one that started from one tree. Outside of the root of the dry run, the dry tree is the tree
from the start, and the live tree is that with what stands below the root laid over it; files lie over files only, and
directories over directories. -/
structure Mirrors (base : Location) (start live dry : Tree) : Prop where
  closedStart : start.Closed
  closedLive : live.Closed
  closedDry : dry.Closed
  root : dry.entry? base = some .directory
  outside : ∀ here, ¬base <+: here → dry.entry? here = start.entry? here
  overlay : ∀ here, ¬base <+: here → live.entry? here = (dry.entry? (base ++ here)).or (start.entry? here)
  kinds : ∀ here, ¬base <+: here → ∀ e f, dry.entry? (base ++ here) = some e → start.entry? here = some f →
    e.kind = f.kind

/-- What is seen in a live tree, and in the two places of a dry one. -/
inductive Sees : (live mirrored behind : Except FileFault (Option Entry)) → Prop
  | entries (d s : Option Entry) (kinds : ∀ e f, d = some e → s = some f → e.kind = f.kind) :
      Sees (.ok (d.or s)) (.ok d) (.ok s)
  | tooLong (path path' : Text) (behind : Except FileFault (Option Entry)) :
      Sees (.error (.nameTooLong path)) (.error (.nameTooLong path')) behind
  | tooLongBehind (path path' : Text) :
      Sees (.error (.nameTooLong path)) (.ok none) (.error (.nameTooLong path'))

variable {base : Location} {start live dry : Tree}

/-- A directory in the live tree is one in the mirror, or one from the start that the mirror does not have. -/
theorem Mirrors.directory_iff (h : Mirrors base start live dry) (hhere : ¬base <+: here) :
    live.entry? here = some .directory ↔ dry.entry? (base ++ here) = some .directory ∨
      dry.entry? (base ++ here) = none ∧ start.entry? here = some .directory := by
  rw [h.overlay here hhere, Option.or_eq_some_iff]

/-- What was there at the start is there in the live tree, or something of its kind. -/
theorem Mirrors.kind_of_start (h : Mirrors base start live dry) (hhere : ¬base <+: here) {f : Entry}
    (hf : start.entry? here = some f) : ∃ e, live.entry? here = some e ∧ e.kind = f.kind := by
  rw [h.overlay here hhere]
  cases hmirrored : dry.entry? (base ++ here) with
  | none => exact ⟨f, by rw [Option.none_or, hf], rfl⟩
  | some e => exact ⟨e, rfl, h.kinds here hhere e f hmirrored hf⟩

theorem Mirrors.mirror_eq_none (h : Mirrors base start live dry) (hhere : ¬base <+: here)
    (hstart : start.entry? here = some .directory) (hmirrored : dry.entry? (base ++ here) ≠ some .directory) :
    dry.entry? (base ++ here) = none := by
  cases hentry : dry.entry? (base ++ here) with
  | none => rfl
  | some e =>
    rw [hentry, Entry.eq_directory (h.kinds here hhere e _ hentry hstart)] at hmirrored
    exact absurd rfl hmirrored

/-- The same names are seen in the live tree, and in the two places of the dry one. -/
theorem Mirrors.seeFrom (h : Mirrors base start live dry) (path path' : Text) (hplain : parentName ∉ names) :
    ∀ {here : Location}, ¬base <+: here ++ names →
      Sees (live.seeFrom path here names) (dry.seeFrom path' (base ++ here) names) (dry.seeFrom path here names) := by
  induction names with
  | nil =>
    intro here hhere
    rw [List.append_nil] at hhere
    have hsee : ∀ (t : Tree) (path : Text) (there : Location), t.seeFrom path there [] = .ok (t.entry? there) :=
      fun _ _ _ => rfl
    rw [hsee, hsee, hsee, h.overlay here hhere, h.outside here hhere]
    exact .entries _ _ (h.kinds here hhere)
  | cons name names ih =>
    intro here hout
    obtain ⟨hname, hnames⟩ := not_or.mp (mt List.mem_cons.mpr hplain)
    have hhere : ¬base <+: here := fun hpre => hout (hpre.trans (List.prefix_append _ _))
    have hon := ih hnames (by simpa using hout : ¬base <+: here ++ [name] ++ names)
    rw [← List.append_assoc] at hon
    rw [seeFrom_cons h.closedLive (Ne.symm hname), seeFrom_cons h.closedDry (Ne.symm hname),
      seeFrom_cons h.closedDry (Ne.symm hname), h.outside here hhere]
    by_cases hlong : longestName < name.bytes.length
    · -- A name that is too long is noticed where there is a directory: in the mirror, or behind it, or in neither.
      simp only [hlong, and_true]
      by_cases hmirrored : dry.entry? (base ++ here) = some .directory
      · rw [if_pos ((h.directory_iff hhere).mpr (.inl hmirrored)), if_pos hmirrored]
        exact .tooLong _ _ _
      · by_cases hstart : start.entry? here = some .directory
        · have hnone := h.mirror_eq_none hhere hstart hmirrored
          have hbehind : dry.entry? (base ++ here ++ [name]) = none :=
            h.closedDry.entry?_eq_none (List.cons_ne_nil _ _) hmirrored
          rw [if_pos ((h.directory_iff hhere).mpr (.inr ⟨hnone, hstart⟩)), if_neg hmirrored, if_pos hstart,
            seeFrom_of_none hbehind]
          exact .tooLongBehind _ _
        · rw [if_neg (fun hlive => ((h.directory_iff hhere).mp hlive).elim hmirrored fun hs => hstart hs.2),
            if_neg hmirrored, if_neg hstart]
          exact hon
    · simp only [hlong, and_false, if_false]
      exact hon

/-! ## Mirrored paths -/

/-- A path outside of a root, which a sandbox with that root mirrors below it. -/
structure Mirrored (root p : Path) : Prop where
  direct : p.IsDirect
  fit : p.unfit? = none
  outside : ¬root.names <+: p.names

/-- The root of a dry run: a path that leads to a location. -/
structure IsBase (root : Path) : Prop where
  direct : root.IsDirect
  short : root.IsShort

variable {root : Path}

theorem IsBase.isDirect_behind (hroot : IsBase root) (hp : p.IsDirect) : (behind root p.names).IsDirect :=
  ⟨hroot.direct.absolute, fun hmem => (List.mem_append.mp hmem).elim hroot.direct.plain hp.plain⟩

theorem IsBase.unfit?_behind (hroot : IsBase root) (hfit : p.unfit? = none) : (behind root p.names).unfit? = none :=
  Path.unfit?_eq_none.mpr fun name hname => (List.mem_append.mp hname).elim
    (Path.unfit?_eq_none.mp hroot.short.fit name) (Path.unfit?_eq_none.mp hfit name)

/-- A mirrored path is no shorter. -/
theorem bytes_behind (hroot : root.isAbsolute = true) (hbase : root.names ≠ []) (hne : p.names ≠ []) :
    p.toText.bytes.length ≤ (behind root p.names).toText.bytes.length := by
  have hslash : ∀ t : Text, (Text.bytes (char '/' :: t)).length = (Text.bytes t).length + 1 := fun t => by
    rw [Text.bytes, List.flatMap_cons, List.length_append, ← Text.bytes, Nat.add_comm]
    rfl
  have hnames : (Text.bytes (joinWith [char '/'] p.names)).length + 1 ≤
      (Text.bytes (joinWith [char '/'] (root.names ++ p.names))).length := by
    rw [joinWith_append hbase hne, List.append_assoc, List.singleton_append, Text.bytes, Text.bytes,
      List.flatMap_append, List.length_append, ← Text.bytes, ← Text.bytes, ← Text.bytes, hslash]
    omega
  have hfile : p.toText.bytes.length ≤ (Text.bytes (joinWith [char '/'] p.names)).length + 2 := by
    unfold Path.toText
    cases p.root with
    | relative =>
      simp only
      split
      · exact Nat.le_add_left _ _
      · omega
    | slash => simp only [hslash]; omega
    | doubleSlash => simp only [hslash]; omega
  have hmirror : (Text.bytes (joinWith [char '/'] (root.names ++ p.names))).length + 1 ≤
      (behind root p.names).toText.bytes.length := by
    unfold behind Path.toText
    cases hstart : root.root with
    | relative => simp [Path.isAbsolute, hstart] at hroot
    | slash => simp only [hslash]; omega
    | doubleSlash => simp only [hslash]; omega
  omega

/-- A path that is too long is too long below a root as well. -/
theorem tooLong_behind (hroot : IsBase root) (hp : Mirrored root p) (hlong : longestPath < p.toText.bytes.length) :
    longestPath < (behind root p.names).toText.bytes.length := by
  have hbase : root.names ≠ [] := fun hnil => hp.outside (hnil ▸ List.nil_prefix)
  have hne : p.names ≠ [] := by
    intro hnil
    have hshort : p.toText.bytes.length ≤ 2 := by
      unfold Path.toText
      rw [hnil]
      cases p.root <;> decide
    exact absurd (Nat.lt_of_lt_of_le hlong hshort) (by decide)
  exact Nat.lt_of_lt_of_le hlong (bytes_behind hroot.direct.absolute hbase hne)

theorem Mirrors.see (h : Mirrors root.names start live dry) (hroot : IsBase root) (hp : Mirrored root p)
    (hroom : p.toText.bytes.length ≤ longestPath → (behind root p.names).toText.bytes.length ≤ longestPath)
    (cwd : Location) : Sees (live.see cwd p) (dry.see cwd (behind root p.names)) (dry.see cwd p) := by
  rw [see_eq hp.direct hp.fit, see_eq hp.direct hp.fit,
    see_eq (hroot.isDirect_behind hp.direct) (hroot.unfit?_behind hp.fit)]
  by_cases hlong : longestPath < p.toText.bytes.length
  · rw [if_pos hlong, if_pos (tooLong_behind hroot hp hlong)]
    exact .tooLong _ _ _
  · rw [if_neg hlong, if_neg hlong, if_neg (Nat.not_lt.mpr (hroom (Nat.not_lt.mp hlong)))]
    have hseen := h.seeFrom p.toText (behind root p.names).toText hp.direct.plain (by simpa using hp.outside :
      ¬root.names <+: [] ++ p.names)
    have hbase : dry.follow (behind root p.names).toText [] root.names = .ok root.names :=
      (follow_eq_ok_iff h.closedDry hroot.direct.plain).mpr ⟨rfl, hroot.short.names, fun _ =>
        h.closedDry.directory_of_prefix (List.dropLast_prefix _) h.root⟩
    have hbehind : dry.seeFrom (behind root p.names).toText [] (behind root p.names).names =
        dry.seeFrom (behind root p.names).toText root.names p.names := by
      rw [Tree.seeFrom, Tree.seeFrom, ← follow_append_of_ok p.names hbase]
      rfl
    rw [List.append_nil] at hseen
    rwa [hbehind]

/-- A text that the live tree takes can be written below the root of the dry run. -/
theorem Mirrors.takes {text : Text} (h : Mirrors root.names start live dry) (hroot : IsBase root) (hp : Mirrored root p)
    (hroom : (behind root p.names).toText.bytes.length + scratchNameExtra ≤ longestPath) (htakes : live.Takes p text) :
    dry.Takes (behind root p.names) text := by
  have hlast : (behind root p.names).names.dropLast = root.names ++ p.names.dropLast :=
    List.dropLast_append_of_ne_nil htakes.named
  have hname : (behind root p.names).name = p.name := by
    rw [Path.name, Path.name, List.getLastD_eq_getLast?, List.getLastD_eq_getLast?, behind,
      List.getLast?_append_of_ne_nil _ htakes.named]
  refine ⟨hroot.unfit?_behind hp.fit, hroom, fun hnil => htakes.named (List.append_eq_nil_iff.mp hnil).2,
    fun name hname => (List.mem_append.mp hname).elim (hroot.short.names name) (htakes.names name), hname ▸ htakes.name,
    htakes.encoded, ?_, ?_⟩
  · rw [hlast]
    intro front hfront
    rcases List.prefix_or_prefix_of_prefix hfront (List.prefix_append root.names p.names.dropLast) with hshort | ⟨rest, rfl⟩
    · exact .inr (h.closedDry.directory_of_prefix hshort h.root)
    · have hrest := (List.prefix_append_right_inj _).mp hfront
      have hout : ¬root.names <+: rest := fun hpre =>
        hp.outside (hpre.trans (hrest.trans (List.dropLast_prefix _)))
      cases hentry : dry.entry? (root.names ++ rest) with
      | none => exact .inl rfl
      | some e =>
        have hlive := h.overlay rest hout
        rw [hentry, Option.some_or] at hlive
        rcases htakes.way rest hrest with hnone | hdir
        · rw [hlive] at hnone
          cases hnone
        · exact .inr (hlive ▸ hdir)
  · intro hdir
    exact htakes.free ((h.directory_iff hp.outside).mpr (.inl hdir))

/-- A text that is written in both trees, below the root in the dry one, leaves the one over the other. -/
theorem Mirrors.wrote {text : Text} {chars : List Char} {live' dry' : Tree} (h : Mirrors root.names start live dry)
    (htakes : live.Takes p text) (htakes' : dry.Takes (behind root p.names) text)
    (hlive : live.Wrote live' p chars) (hdry : dry.Wrote dry' (behind root p.names) chars) :
    Mirrors root.names start live' dry' := by
  have hlast : (behind root p.names).names.dropLast = root.names ++ p.names.dropLast :=
    List.dropLast_append_of_ne_nil htakes.named
  have hbelow : ∀ here, dry'.entry? (root.names ++ here) =
      if here = p.names then some (.file (.text chars))
      else if here <+: p.names.dropLast then some .directory else dry.entry? (root.names ++ here) := by
    intro here
    rw [hdry, hlast, behind]
    simp only [List.append_cancel_left_eq, List.prefix_append_right_inj]
  refine ⟨h.closedStart, hlive.closed htakes h.closedLive, hdry.closed htakes' h.closedDry, ?_, fun here hhere => ?_,
    fun here hhere => ?_, fun here hhere e f he hf => ?_⟩
  -- The root, what is outside of it, the overlay, and the kinds.
  · rw [← List.append_nil root.names, hbelow, if_neg (Ne.symm htakes.named), if_pos List.nil_prefix]
  · have hne : here ≠ (behind root p.names).names := fun heq => hhere (heq ▸ List.prefix_append _ _)
    rw [hdry, if_neg hne, hlast, ← h.outside here hhere]
    split
    · rename_i hpre
      rcases List.prefix_or_prefix_of_prefix hpre (List.prefix_append root.names p.names.dropLast) with hshort | hlong
      · exact (h.closedDry.directory_of_prefix hshort h.root).symm
      · exact absurd hlong hhere
    · rfl
  · rw [hlive, hbelow, h.overlay here hhere]
    split
    · rfl
    · split <;> rfl
  · rw [hbelow] at he
    obtain ⟨g, hg, hkind⟩ := h.kind_of_start hhere hf
    by_cases hfile : here = p.names
    · rw [if_pos hfile] at he
      rw [← Option.some.inj he]
      cases f with
      | file content => rfl
      | directory =>
        -- The live tree would have a directory where it took the file.
        rw [hfile, Entry.eq_directory hkind] at hg
        exact absurd hg htakes.free
    · rw [if_neg hfile] at he
      by_cases hdir : here <+: p.names.dropLast
      · rw [if_pos hdir] at he
        rw [← Option.some.inj he]
        cases f with
        | directory => rfl
        | file content =>
          -- The live tree would have a file on the way to the one that it took.
          rcases htakes.way here hdir with hnone | hdirectory
          · rw [hg] at hnone
            cases hnone
          · rw [Option.some.inj (hg.symm.trans hdirectory)] at hkind
            cases hkind
      · rw [if_neg hdir] at he
        exact h.kinds here hhere e f he hf

/-- A write that is done in the live tree is done in the dry one. -/
theorem Mirrors.write {text : Text} {live' : Tree} (h : Mirrors root.names start live dry) (hroot : IsBase root)
    (hp : Mirrored root p)
    (hroom : p.toText.bytes.length + scratchNameExtra ≤ longestPath →
      (behind root p.names).toText.bytes.length + scratchNameExtra ≤ longestPath)
    (hwrite : live.write cwd p text = (live', none)) :
    ∃ dry', dry.write cwd (behind root p.names) text = (dry', none) ∧ Mirrors root.names start live' dry' := by
  obtain ⟨htakes, chars, hchars, hlive⟩ := takes_of_write h.closedLive hp.direct hwrite
  have hdirect := hroot.isDirect_behind hp.direct
  have htakes' := h.takes hroot hp (hroom htakes.room) htakes
  obtain ⟨dry', hdone⟩ := htakes'.write h.closedDry hdirect cwd
  obtain ⟨-, chars', hchars', hdry⟩ := takes_of_write h.closedDry hdirect hdone
  obtain rfl := Option.some.inj (hchars.symm.trans hchars')
  exact ⟨dry', hdone, h.wrote htakes htakes' hlive hdry⟩

end Tree

end Regraft

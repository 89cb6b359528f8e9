import Regraft.Proofs.Record.Versions
import Regraft.Proofs.Store.Appending
import Regraft.Proofs.Text.Order
/-!
# What a store holds

A log lists the versions that have been stored, the oldest first, each with its target. A store holds a log
(`Store.Holds`) if the files below its root are just the artifacts of the log, the directories have names that no
artifact has, and the versions of every target have the numbers 1, 2, 3 and so on.

* `Holds.outcome_load`: loading a target gives its versions in the log;
* `Holds.append`: an append adds a version to the log, or the log stays as it is;
* `Holds.outcome_targets`: the targets of the store are those of the log.
-/
namespace Regraft

open Regraft.Tree (behind namesBelow?)

/-! ## Logs -/

/-- A target that is its own key, of which no name can be taken for that of an artifact. -/
structure IsTarget (target : Text) : Prop where
  fixed : keyOf target = .ok target
  noBreak : char '\n' ∉ target
  noArtifact : ∀ name ∈ (Path.ofText target).names, artifactTarget? name = none

/-- The versions of one target in a log. -/
def versionsOf (target : Text) (log : List (Text × Version)) : List Version :=
  log.filterMap fun a => if a.1 = target then some a.2 else none

theorem mem_versionsOf {target : Text} {log : List (Text × Version)} {v : Version} :
    v ∈ versionsOf target log ↔ (target, v) ∈ log := by
  simp only [versionsOf, List.mem_filterMap, Option.ite_none_right_eq_some, Option.some.injEq]
  constructor
  · rintro ⟨⟨t, u⟩, hmem, rfl, rfl⟩
    exact hmem
  · exact fun hmem => ⟨_, hmem, rfl, rfl⟩

theorem versionsOf_append (target : Text) (log more : List (Text × Version)) :
    versionsOf target (log ++ more) = versionsOf target log ++ versionsOf target more :=
  List.filterMap_append ..

/-- The numbers from 1 on. -/
def numbersTo (n : Nat) : List Int := List.map (fun i : Nat => (i : Int) + 1) (List.range n)

theorem numbersTo_succ (n : Nat) : numbersTo (n + 1) = numbersTo n ++ [(n : Int) + 1] := by
  simp [numbersTo, List.range_succ]

theorem pairwise_numbersTo (n : Nat) : (numbersTo n).Pairwise (· < ·) := by
  rw [numbersTo, List.pairwise_map]
  exact List.pairwise_lt_range.imp fun h => by omega

/-- The names on the way to the artifact of a version in a log. -/
def artifactOf (a : Text × Version) : List Text := artifactNames (Path.ofText a.1).names a.2.order.toNat

/-- The names that lead from a location to the files below it, in the order of the entries. -/
def Tree.filesBelow (base : Location) (t : Tree) : List (List Text) :=
  t.entries.filterMap fun d => match d.2 with
    | .file _ => namesBelow? base d.1
    | .directory => none

namespace Store

/-- The artifact of a version is in its place. -/
def Stands (s : Store) (base : Location) (w : World) (a : Text × Version) : Prop :=
  w.tree.locate w.cwd (behind s.root (artifactOf a)) = .ok (base ++ artifactOf a) ∧
    ∃ chars, w.tree.entry? (base ++ artifactOf a) = some (.file (.text chars)) ∧
      ∀ now, Version.ofArtifact now (Text.ofChars chars) = .ok a.2

/-- The next version of a target behind a log. -/
def versionBehind (log : List (Text × Version)) (target : Text) (clock : Moment) (records : List Record) : Version :=
  let order : Nat := (versionsOf target log).length + 1
  ⟨order, clock, records.map (stamp target order)⟩

/-- Why a version of a target cannot be stored: the system refuses to look at its directory or to write it, or its
number is too long. -/
inductive Fails (s : Store) (w : World) (target : Text) (v : Version) : Fault → Prop where
  | looking {refusal : FileFault} : w.tree.probe w.cwd (s.directory target) = .error refusal →
      Fails s w target v (.file refusal)
  | writing {tree : Tree} {refusal : FileFault} :
      w.tree.write w.cwd (behind s.root (artifactOf (target, v))) v.artifact = (tree, some refusal) →
        Fails s w target v (.file refusal)
  | numbering : ¬ IsShort v.order → Fails s w target v (.key .orderTooLong)

/-- The store with its root at a location holds the versions of a log, and nothing else. -/
structure Holds (s : Store) (base : Location) (log : List (Text × Version)) (w : World) : Prop where
  root : w.tree.RootAt w.cwd s.root base
  targets : ∀ a ∈ log, IsTarget a.1
  numbers : ∀ target, (versionsOf target log).map Version.order = numbersTo (versionsOf target log).length
  directories : ∀ d ∈ w.tree.entries, d.2 = .directory → ∀ names, namesBelow? base d.1 = some names →
    ∀ name ∈ names, artifactTarget? name = none
  files : w.tree.filesBelow base = log.map artifactOf
  stored : ∀ a ∈ log, s.Stands base w a

end Store

namespace IsTarget

variable {target other : Text}

theorem keyNames (h : IsTarget target) : KeyNames target (Path.ofText target).names := by
  obtain ⟨names, hnames⟩ := exists_keyNames h.fixed
  rw [hnames.ofText]
  exact hnames

theorem last_noBreak (h : IsTarget target) : char '\n' ∉ (Path.ofText target).names.getLastD [] := by
  intro hmem
  refine h.noBreak ?_
  rw [h.keyNames.written]
  exact mem_joinWith hmem h.keyNames.last_mem

/-- The name of an artifact tells its target. -/
theorem artifactTarget? (h : IsTarget target) (order : Nat) :
    Regraft.artifactTarget? (artifactFile ((Path.ofText target).names.getLastD []) order) =
      some ((Path.ofText target).names.getLastD []) :=
  artifactTarget?_artifactFile (h.keyNames.isName _ h.keyNames.last_mem).ne_nil h.last_noBreak order

end IsTarget

namespace Store

variable {s : Store} {base : Location} {log : List (Text × Version)} {w : World} {target : Text}

/-! ## Loading -/

/-- The name of a file with a version of one target in a directory, by the names that lead to the file. -/
def artifactIn (dir : List Text) (name : Text) (names : List Text) : Option Text :=
  if names.dropLast = dir then names.getLast?.filter fun f => artifactTarget? f = some name else none

theorem artifactIn_eq_some {dir names : List Text} {name f : Text} :
    artifactIn dir name names = some f ↔ names = dir ++ [f] ∧ artifactTarget? f = some name := by
  unfold artifactIn
  constructor
  · intro h
    split at h
    · rename_i hdir
      obtain ⟨hlast, hf⟩ := Option.filter_eq_some_iff.mp h
      obtain ⟨front, rfl⟩ := List.getLast?_eq_some_iff.mp hlast
      rw [List.dropLast_concat] at hdir
      exact ⟨by rw [hdir], of_decide_eq_true hf⟩
    · cases h
  · rintro ⟨rfl, hf⟩
    simp [hf]

/-- The name of an entry right below a location, if it tells a target of a name. -/
def childHolding (here : Location) (name : Text) (there : Location) : Option Text :=
  (namesBelow? here there).bind fun names => match names with
    | [f] => if artifactTarget? f = some name then some f else none
    | _ => none

theorem childHolding_eq_some {here there : Location} {name f : Text} :
    childHolding here name there = some f ↔ there = here ++ [f] ∧ artifactTarget? f = some name := by
  rw [childHolding, Option.bind_eq_some_iff]
  constructor
  · rintro ⟨names, hnames, hf⟩
    obtain ⟨rfl, -⟩ := Tree.namesBelow?_eq_some_iff.mp hnames
    split at hf
    · obtain ⟨htold, heq⟩ := Option.ite_none_right_eq_some.mp hf
      obtain rfl := Option.some.inj heq
      exact ⟨rfl, htold⟩
    · cases hf
  · rintro ⟨rfl, hf⟩
    exact ⟨[f], Tree.namesBelow?_append (by simp), by simp [hf]⟩

theorem artifacts_of_locate {p : Path} {here : Location} {name : Text} (h : w.tree.locate w.cwd p = .ok here) :
    w.artifacts p name = w.tree.entries.filterMap fun d => childHolding here name d.1 := by
  simp only [World.artifacts, Tree.children, Tree.below, h, List.filterMap_filterMap, List.filter_filterMap]
  refine List.filterMap_congr fun d _ => ?_
  unfold childHolding
  cases namesBelow? here d.1 with
  | none => rfl
  | some names =>
    cases names with
    | nil => rfl
    | cons f rest =>
      cases rest with
      | nil => by_cases hf : artifactTarget? f = some name <;> simp [hf]
      | cons g rest => rfl

namespace Holds

theorem pairwise_order (h : s.Holds base log w) (target : Text) :
    (versionsOf target log).Pairwise fun a b => a.order < b.order := by
  have hnumbers := pairwise_numbersTo (versionsOf target log).length
  rw [← h.numbers target, List.pairwise_map] at hnumbers
  exact hnumbers

/-- A stored version lies in its directory. -/
theorem probe_directory (h : s.Holds base log w) {v : Version} (hv : v ∈ versionsOf target log) :
    w.tree.probe w.cwd (s.directory target) = .ok (some .directory) := by
  have hmem := mem_versionsOf.mp hv
  obtain ⟨hlocate, -⟩ := h.stored _ hmem
  have hnames := (h.targets _ hmem).keyNames
  obtain ⟨dir, hdir, hentry⟩ := Tree.locate_parent hlocate (by simp [behind, artifactOf, artifactNames])
  have hparent : (behind s.root (artifactOf (target, v))).parent = s.directory target := by
    rw [hnames.directory_eq s, artifactOf]
    simp [behind, Path.parent, artifactNames]
  rw [hparent] at hdir
  simp [Tree.probe, hdir, hentry, Entry.kind]

/-- The files in the directory of a target that hold its versions. -/
theorem artifacts_eq (h : s.Holds base log w) (htarget : IsTarget target)
    (hdir : w.tree.locate w.cwd (s.directory target) = .ok (base ++ (Path.ofText target).names.dropLast)) :
    w.artifacts (s.directory target) (Path.ofText target).name =
      (versionsOf target log).map fun v => artifactFile ((Path.ofText target).names.getLastD []) v.order.toNat := by
  have hname : (Path.ofText target).name = (Path.ofText target).names.getLastD [] := rfl
  have hfiles : w.artifacts (s.directory target) (Path.ofText target).name =
      (w.tree.filesBelow base).filterMap
        (artifactIn (Path.ofText target).names.dropLast (Path.ofText target).name) := by
    rw [artifacts_of_locate hdir, Tree.filesBelow, List.filterMap_filterMap]
    refine List.filterMap_congr fun d hd => Option.ext fun f => ?_
    rw [childHolding_eq_some, Option.bind_eq_some_iff]
    constructor
    · rintro ⟨hthere, hf⟩
      have hbelow : namesBelow? base d.1 = some ((Path.ofText target).names.dropLast ++ [f]) :=
        Tree.namesBelow?_eq_some_iff.mpr ⟨by rw [hthere, List.append_assoc], by simp⟩
      cases hkind : d.2 with
      | file content => exact ⟨_, hbelow, artifactIn_eq_some.mpr ⟨rfl, hf⟩⟩
      | directory =>
        have hnone := h.directories d hd hkind _ hbelow f (by simp)
        rw [hf] at hnone
        cases hnone
    · rintro ⟨names, hnames, hin⟩
      obtain ⟨rfl, hf⟩ := artifactIn_eq_some.mp hin
      cases hkind : d.2 with
      | file content =>
        rw [hkind] at hnames
        obtain ⟨hthere, -⟩ := Tree.namesBelow?_eq_some_iff.mp hnames
        exact ⟨by rw [hthere, List.append_assoc], hf⟩
      | directory =>
        rw [hkind] at hnames
        cases hnames
  rw [hfiles, h.files, List.filterMap_map, versionsOf, List.map_filterMap]
  refine List.filterMap_congr fun a ha => Option.ext fun f => ?_
  have hkeys := h.targets a ha
  rw [Function.comp_apply, artifactIn_eq_some, hname]
  constructor
  · rintro ⟨hnames, hf⟩
    obtain ⟨hdropped, hfile⟩ := List.append_inj' hnames rfl
    rw [← List.singleton_inj.mp hfile, hkeys.artifactTarget?, Option.some.injEq] at hf
    have hsame : (Path.ofText a.1).names = (Path.ofText target).names := by
      rw [← hkeys.keyNames.dropLast_append, ← htarget.keyNames.dropLast_append, hdropped, hf]
    have heq : a.1 = target := hkeys.keyNames.key_eq (hsame ▸ htarget.keyNames)
    simp [heq, ← List.singleton_inj.mp hfile]
  · intro hf
    by_cases heq : a.1 = target
    · simp only [heq, if_true, Option.map_some, Option.some.injEq] at hf
      subst hf
      exact ⟨by rw [artifactOf, heq]; rfl, htarget.artifactTarget? _⟩
    · simp [heq] at hf

/-- The version in an artifact is the one that was stored there. -/
theorem version_artifact (h : s.Holds base log w) {v : Version} (hv : v ∈ versionsOf target log) :
    w.version ((s.directory target).child
      (artifactFile ((Path.ofText target).names.getLastD []) v.order.toNat)) = .ok v := by
  have hmem := mem_versionsOf.mp hv
  obtain ⟨hlocate, chars, hentry, hholds⟩ := h.stored _ hmem
  have hread : w.tree.read w.cwd (behind s.root (artifactOf (target, v))) = .ok (.text chars) := by
    simp [Tree.read, hlocate, hentry, bind, Except.bind, pure, Except.pure]
  rw [(h.targets _ hmem).keyNames.directory_eq s, child_behind]
  exact World.version_eq_ok hread (hholds w.clock)

/-- What is read in the directory of a target, if the system can be asked about it. -/
theorem versionsAt_eq (h : s.Holds base log w) (htarget : IsTarget target) {kind : Option EntryKind}
    (hprobe : w.tree.probe w.cwd (s.directory target) = .ok kind) :
    ∃ vs, vs.Perm (versionsOf target log) ∧ versionsAt w (s.directory target) (Path.ofText target).name = .ok vs := by
  by_cases hkind : kind = some .directory
  · obtain ⟨here, hdir, -⟩ := Tree.locate_of_probe (hkind ▸ hprobe)
    rw [htarget.keyNames.directory_eq s] at hdir
    obtain rfl := h.root.eq_of_locate (fun hmem => htarget.keyNames.noParent (List.dropLast_subset _ hmem)) hdir
    rw [← htarget.keyNames.directory_eq s] at hdir
    let file := fun v : Version => artifactFile ((Path.ofText target).names.getLastD []) v.order.toNat
    refine ⟨(versionsOf target log).mergeSort fun u v => noLater (file u) (file v), List.mergeSort_perm _ _, ?_⟩
    have hsorted : ((versionsOf target log).map file).mergeSort noLater =
        ((versionsOf target log).mergeSort fun u v => noLater (file u) (file v)).map file :=
      (List.map_mergeSort (f := file) fun _ _ _ _ => rfl).symm
    have hread : ∀ v ∈ (versionsOf target log).mergeSort fun u v => noLater (file u) (file v),
        w.version ((s.directory target).child (file v)) = .ok v := fun v hv =>
      h.version_artifact (List.mem_mergeSort.mp hv)
    rw [versionsAt, hprobe]
    simp only [hkind, if_true, World.versions]
    rw [h.artifacts_eq htarget hdir, hsorted, List.mapM_map]
    exact (mapM_eq_ok hread).trans (congrArg Except.ok (List.map_id _))
  · have hnone : versionsOf target log = [] := by
      refine List.eq_nil_iff_forall_not_mem.mpr fun v hv => hkind ?_
      exact Except.ok.inj (hprobe.symm.trans (h.probe_directory hv))
    exact ⟨[], by rw [hnone], by simp [versionsAt, hprobe, hkind]⟩

/-- Loading a target gives its versions, the oldest first. -/
theorem outcome_load (h : s.Holds base log w) (hlive : s.sandbox.root = none) (htarget : IsTarget target)
    {kind : Option EntryKind} (hprobe : w.tree.probe w.cwd (s.directory target) = .ok kind) :
    (s.load target).outcome w = (.ok ⟨target, versionsOf target log⟩, w) := by
  obtain ⟨vs, hperm, hvs⟩ := h.versionsAt_eq htarget hprobe
  have hdistinct : ((versionsOf target log).map Version.order).Nodup :=
    List.pairwise_map.mpr ((h.pairwise_order target).imp fun hlt => ne_of_lt hlt)
  rw [Store.outcome_load hlive htarget.fixed, hvs]
  have hbuild : VersionSet.build target vs = ⟨target, versionsOf target log⟩ :=
    (VersionSet.build_eq_of_perm hdistinct hperm).trans (VersionSet.build_of_ascending (h.pairwise_order target))
  rw [← hbuild]
  rfl

theorem load_eq (h : s.Holds base log w) (hlive : s.sandbox.root = none) (htarget : IsTarget target)
    {vs : VersionSet} {w' : World} (hload : (s.load target).outcome w = (.ok vs, w')) :
    vs = ⟨target, versionsOf target log⟩ := by
  cases hprobe : w.tree.probe w.cwd (s.directory target) with
  | error fault =>
    have hfail := Store.outcome_load hlive htarget.fixed w
    rw [versionsAt, hprobe] at hfail
    cases (Prod.mk.inj (hload.symm.trans hfail)).1
  | ok kind => exact Except.ok.inj (Prod.mk.inj (hload.symm.trans (h.outcome_load hlive htarget hprobe))).1

/-! ## Appending -/

/-- The next version of a target has the number behind those it has. -/
theorem nextOrder_eq (h : s.Holds base log w) (target : Text) :
    (⟨target, versionsOf target log⟩ : VersionSet).nextOrder = ((versionsOf target log).length + 1 : Nat) := by
  have hnumbers := h.numbers target
  rcases List.eq_nil_or_concat (versionsOf target log) with hnil | ⟨front, v, hlast⟩
  · simp [VersionSet.nextOrder, VersionSet.newest?, hnil]
  · rw [hlast, List.concat_eq_append, List.length_append, List.map_append, List.length_singleton, numbersTo_succ] at hnumbers
    obtain ⟨-, hv⟩ := List.append_inj' hnumbers rfl
    have horder : v.order = front.length + 1 := List.singleton_inj.mp hv
    simp [VersionSet.nextOrder, VersionSet.newest?, hlast, horder]

/-- New directories with other names than artifacts leave the log as it is. -/
theorem addDirectories (h : s.Holds base log w) {dir : List Text} {tree : Tree}
    (hadds : Tree.AddsDirectories base dir w.tree tree) (hdir : ∀ name ∈ dir, artifactTarget? name = none) :
    s.Holds base log { w with tree } := by
  obtain ⟨ds, hentries, hds⟩ := hadds.added
  refine ⟨h.root.mono hadds.larger, h.targets, h.numbers, ?_, ?_, ?_⟩
  · intro d hd hkind names hnames name hname
    rw [hentries] at hd
    rcases List.mem_append.mp hd with hd | hd
    · exact h.directories d hd hkind names hnames name hname
    · exact hdir name (((hds d hd).2.2 names hnames).subset hname)
  · have hnew : (ds.filterMap fun d => match d.2 with
        | .file _ => namesBelow? base d.1
        | .directory => none) = [] := by
      refine List.filterMap_eq_nil_iff.mpr fun d hd => ?_
      rw [(hds d hd).1]
    rw [Tree.filesBelow, hentries, List.filterMap_append, hnew, List.append_nil]
    exact h.files
  · intro a ha
    obtain ⟨hlocate, chars, hentry, hholds⟩ := h.stored a ha
    exact ⟨hadds.larger.locate hlocate, chars, hadds.larger _ _ hentry, hholds⟩

theorem order_le (h : s.Holds base log w) {v : Version} (hv : v ∈ versionsOf target log) :
    v.order ≤ (versionsOf target log).length := by
  have hmem : v.order ∈ numbersTo (versionsOf target log).length := h.numbers target ▸ List.mem_map_of_mem hv
  obtain ⟨i, hi, horder⟩ := List.mem_map.mp hmem
  have hlt := List.mem_range.mp hi
  omega

/-- There is nothing in the place of the next version, if there is no directory. -/
theorem entry_next (h : s.Holds base log w) (htarget : IsTarget target) {v : Version}
    (horder : v.order = ((versionsOf target log).length + 1 : Nat))
    (hfree : w.tree.entry? (base ++ artifactOf (target, v)) ≠ some .directory) :
    w.tree.entry? (base ++ artifactOf (target, v)) = none := by
  cases hentry : w.tree.entry? (base ++ artifactOf (target, v)) with
  | none => rfl
  | some e =>
    cases e with
    | directory => exact absurd hentry hfree
    | file content =>
      have hne : artifactOf (target, v) ≠ [] := by
        simp [artifactOf, artifactNames]
      have hmem : (base ++ artifactOf (target, v), Entry.file content) ∈ w.tree.entries := by
        rw [Tree.entry?, if_neg (List.append_ne_nil_of_right_ne_nil base hne)] at hentry
        exact Table.mem_of_get?_eq_some hentry
      have hbelow : artifactOf (target, v) ∈ w.tree.filesBelow base :=
        List.mem_filterMap.mpr ⟨_, hmem, Tree.namesBelow?_append hne⟩
      rw [h.files] at hbelow
      obtain ⟨a, ha, hsame⟩ := List.mem_map.mp hbelow
      obtain ⟨rfl, hnumber⟩ := (h.targets a ha).keyNames.artifactNames_inj htarget.keyNames hsame
      have hle := h.order_le (mem_versionsOf.mpr ha)
      rw [horder] at hnumber
      omega

/-- A new artifact adds its version to the log. -/
theorem addFile (h : s.Holds base log w) (htarget : IsTarget target) {v : Version} {chars : List Char} {tree : Tree}
    (horder : v.order = ((versionsOf target log).length + 1 : Nat))
    (hholds : ∀ now, Version.ofArtifact now (Text.ofChars chars) = .ok v)
    (hfile : Tree.WritesFile w.cwd s.root base (artifactOf (target, v)) chars w.tree tree) :
    s.Holds base (log ++ [(target, v)]) { w with tree } ∧ w.tree.Extends tree := by
  obtain ⟨made, hadds, hlocate, hfree, rfl⟩ := hfile
  have hdir : ∀ name ∈ (artifactOf (target, v)).dropLast, artifactTarget? name = none := by
    intro name hname
    rw [artifactOf, artifactNames, List.dropLast_concat] at hname
    exact htarget.noArtifact name (List.dropLast_subset _ hname)
  have hmade := h.addDirectories hadds hdir
  have hnone := hmade.entry_next htarget horder hfree
  have hlarger := Tree.extends_place_of_none hnone (.file (.text chars))
  have hne : base ++ artifactOf (target, v) ≠ [] :=
    List.append_ne_nil_of_right_ne_nil base (by simp [artifactOf, artifactNames])
  have hentries := Tree.entries_place_of_none hnone (.file (.text chars))
  refine ⟨⟨hmade.root.mono hlarger, ?_, ?_, ?_, ?_, ?_⟩, hadds.larger.trans hlarger⟩
  · intro a ha
    rcases List.mem_append.mp ha with ha | ha
    · exact h.targets a ha
    · rw [List.mem_singleton.mp ha]
      exact htarget
  · intro other
    rw [versionsOf_append]
    by_cases hsame : target = other
    · subst hsame
      have hone : versionsOf target [(target, v)] = [v] := by
        simp [versionsOf]
      rw [hone, List.map_append, List.length_append, List.length_singleton, numbersTo_succ, h.numbers target,
        List.map_singleton, horder]
      rfl
    · have hnil : versionsOf other [(target, v)] = [] := by
        simp [versionsOf, hsame]
      rw [hnil, List.append_nil]
      exact h.numbers other
  · intro d hd hkind
    rw [hentries] at hd
    rcases List.mem_append.mp hd with hd | hd
    · exact hmade.directories d hd hkind
    · rw [List.mem_singleton.mp hd] at hkind
      cases hkind
  · rw [Tree.filesBelow, hentries, List.filterMap_append, List.map_append, ← hmade.files]
    have hnew : namesBelow? base (base ++ artifactOf (target, v)) = some (artifactOf (target, v)) :=
      Tree.namesBelow?_append (by simp [artifactOf, artifactNames])
    simp [Tree.filesBelow, hnew]
  · intro a ha
    rcases List.mem_append.mp ha with ha | ha
    · obtain ⟨hthere, content, hentry, hread⟩ := hmade.stored a ha
      exact ⟨hlarger.locate hthere, content, hlarger _ _ hentry, hread⟩
    · rw [List.mem_singleton.mp ha]
      exact ⟨hlarger.locate hlocate, chars, Tree.place_entry_self hne _, hholds⟩

theorem nextVersion_eq (h : s.Holds base log w) (target : Text) (clock : Moment) (records : List Record) :
    nextVersion target ⟨target, versionsOf target log⟩ clock records = versionBehind log target clock records := by
  rw [nextVersion, h.nextOrder_eq]
  rfl

/-- An append to a target fails early only if the system refuses to look, or the number of the version is too long. -/
theorem fails_of_failsEarly (h : s.Holds base log w) (hlive : s.sandbox.root = none) (htarget : IsTarget target)
    {records : List Record} {fault : Fault} (hfault : s.FailsEarly w target fault) :
    s.Fails w target (versionBehind log target w.clock records) fault := by
  rcases hfault with ⟨e, hkey, -⟩ | ⟨key, hkey, hload⟩
  · cases hkey.symm.trans htarget.fixed
  obtain rfl := Except.ok.inj (hkey.symm.trans htarget.fixed)
  rcases hload with hload | ⟨vs, e, hload, hpath, rfl⟩
  · cases hprobe : w.tree.probe w.cwd (s.directory key) with
    | ok kind => cases (Prod.mk.inj (hload.symm.trans (h.outcome_load hlive htarget hprobe))).1
    | error refusal =>
      have hfail := Store.outcome_load hlive htarget.fixed w
      rw [versionsAt, hprobe] at hfail
      rw [Except.error.inj (Prod.mk.inj (hload.symm.trans hfail)).1]
      exact .looking hprobe
  · obtain ⟨rfl, hlong⟩ := artifactPath_eq_error htarget.fixed hpath
    obtain rfl := h.load_eq hlive htarget hload
    rw [h.nextOrder_eq] at hlong
    exact .numbering hlong

/-- An append adds the next version of its target to the log, or fails and leaves the log as it is. Either way, all
that was there is still there. -/
theorem append (h : s.Holds base log w) (hlive : s.sandbox.root = none) (htarget : IsTarget target)
    {records : List Record} (hclock : w.clock.IsUniversal) (hrecords : ∀ r ∈ records, r.HasShortNumbers)
    {v : Version} (hv : v = versionBehind log target w.clock records) {result : Except Fault Stored} {w' : World}
    (hout : (s.append target records).outcome w = (result, w')) :
    w.tree.Extends w'.tree ∧
      ((∃ fault, result = .error fault ∧ s.Fails w target v fault ∧ s.Holds base log w') ∨
        result = .ok ⟨v, behind s.root (artifactOf (target, v))⟩ ∧ s.Holds base (log ++ [(target, v)]) w') := by
  have hnumber : ∀ first vs, keyOf target = .ok first → (s.load first).outcome w = (.ok vs, w) →
      ∃ n : Nat, vs.nextOrder = n := by
    intro first vs hfirst hload
    obtain rfl := Except.ok.inj (hfirst.symm.trans htarget.fixed)
    rw [h.load_eq hlive htarget hload, h.nextOrder_eq first]
    exact ⟨_, rfl⟩
  rcases append_cases hlive h.root hnumber hout with
    ⟨fault, hr, rfl, hfault⟩ | ⟨first, key, names, vs, n, hnext, hwrite⟩
  · exact ⟨.refl _, .inl ⟨fault, hr, hv ▸ h.fails_of_failsEarly hlive htarget hfault, h⟩⟩
  obtain rfl := Except.ok.inj (hnext.keyed.symm.trans htarget.fixed)
  obtain rfl := Except.ok.inj (hnext.rekeyed.symm.trans htarget.fixed)
  obtain rfl := hnext.placed.names_eq htarget.keyNames
  obtain rfl := h.load_eq hlive htarget hnext.loaded
  have hlength : n = (versionsOf key log).length + 1 := by
    have := hnext.number.symm.trans (h.nextOrder_eq key)
    omega
  have hversion : nextVersion key ⟨key, versionsOf key log⟩ w.clock records = v :=
    (h.nextVersion_eq key w.clock records).trans hv.symm
  have hplace : artifactOf (key, v) = artifactNames (Path.ofText key).names n := by
    rw [artifactOf, hlength, hv]
    rfl
  rw [hversion, ← hplace] at hwrite
  rcases hwrite with ⟨tree, refusal, hadds, hrefused, rfl, hr⟩ | ⟨chars, tree, hchars, hfile, rfl, hr⟩
  · have hdir : ∀ name ∈ (Path.ofText key).names.dropLast, artifactTarget? name = none := fun name hname =>
      htarget.noArtifact name (List.dropLast_subset _ hname)
    exact ⟨hadds.larger, .inl ⟨_, hr, .writing hrefused, h.addDirectories hadds hdir⟩⟩
  · have hholds := ofArtifact_nextVersion (hnext.number.symm ▸ hnext.short) hclock hrecords (hversion.symm ▸ hchars)
    rw [hversion] at hholds
    obtain ⟨hheld, hlarger⟩ := h.addFile htarget (by rw [hv]; rfl) hholds hfile
    exact ⟨hlarger, .inr ⟨hr, hheld⟩⟩

end Holds

/-! ## Listing the targets -/

/-- Listing the targets changes nothing, and goes by what is below the root. -/
theorem outcome_targets (hlive : s.sandbox.root = none) {kind : Option EntryKind}
    (hprobe : w.tree.probe w.cwd s.root = .ok kind) :
    s.targets.outcome w = (.ok (((if kind = some .directory then
      (w.tree.below w.cwd s.root).filterMap fun d => targetOf? d.1 else []).mergeSort noLater).eraseDups), w) := by
  have hplaces : s.sandbox.searchRoots s.root = .ok [s.root] := by
    simp [Sandbox.searchRoots, hlive]
  have hbelow : Attempt.outcome (targetsBelow s.root) w = (.ok (if kind = some .directory then
      (w.tree.below w.cwd s.root).filterMap fun d => targetOf? d.1 else []), w) := by
    refine (Attempt.outcome_bind (outcome_isDirectory hprobe) _).trans ?_
    by_cases hkind : kind = some .directory
    · simp only [hkind, decide_true, if_true]
      exact (Attempt.outcome_bind (Attempt.outcome_request (.below s.root) w) _).trans rfl
    · simp only [hkind, decide_false, if_false]
      rfl
  refine (Attempt.outcome_bind (Attempt.outcome_ofExcept .file hplaces w) _).trans ?_
  have hall : Attempt.outcome ([s.root].mapM targetsBelow) w = (.ok [if kind = some .directory then
      (w.tree.below w.cwd s.root).filterMap fun d => targetOf? d.1 else []], w) := by
    rw [List.mapM_cons]
    exact Attempt.outcome_bind hbelow _
  refine (Attempt.outcome_bind hall _).trans ?_
  rw [List.flatten_singleton]
  rfl

namespace Holds

/-- The names on the way to an artifact tell its target. -/
theorem targetOf?_artifactOf (htarget : IsTarget target) (v : Version) :
    targetOf? (artifactOf (target, v)) = some target := by
  have hnames := htarget.keyNames
  have hlast := hnames.isName _ hnames.last_mem
  have hpath : Path.ofText (joinWith ['/'] [(Path.ofText target).names.getLastD []]) =
      Path.ofNames [(Path.ofText target).names.getLastD []] :=
    Path.ofText_joinWith (List.cons_ne_nil _ _) (List.forall_mem_singleton.mpr hlast)
  rw [joinWith] at hpath
  have hwhole : (Path.ofNames (Path.ofText target).names.dropLast).join
      (Path.ofNames [(Path.ofText target).names.getLastD []]) = Path.ofNames (Path.ofText target).names := by
    rw [Path.join_ofNames, behind, Path.ofNames, Path.ofNames, hnames.dropLast_append]
  simp only [targetOf?, artifactOf, artifactNames, List.getLast?_append, List.getLast?_singleton, Option.some_or,
    Option.bind_some, htarget.artifactTarget?, Option.map_some, List.dropLast_concat, hpath, hwhole]
  rw [Path.toText_ofNames hnames.ne_nil hnames.isName, ← hnames.written]

theorem targetOf?_eq_none {names : List Text} (h : ∀ name ∈ names, artifactTarget? name = none) :
    targetOf? names = none := by
  unfold targetOf?
  cases hlast : names.getLast? with
  | none => rfl
  | some name => rw [Option.bind_some, h name (List.mem_of_getLast? hlast), Option.map_none]

theorem filterMap_targetOf? (h : s.Holds base log w) :
    (w.tree.filesBelow base).filterMap targetOf? = log.map Prod.fst := by
  rw [h.files, List.filterMap_map]
  exact List.filterMap_eq_map_iff_forall_eq_some.mpr fun a ha => targetOf?_artifactOf (h.targets a ha) a.2

/-- A store with versions has its root. -/
theorem locate_root (h : s.Holds base log w) {a : Text × Version} (ha : a ∈ log) :
    ∃ here, w.tree.locate w.cwd s.root = .ok here ∧ w.tree.entry? here = some .directory := by
  obtain ⟨hlocate, -⟩ := h.stored a ha
  exact Tree.locate_of_behind (by simp [artifactOf, artifactNames]) hlocate

/-- The targets of a store are those of its log, in order and without repetitions. -/
theorem outcome_targets (h : s.Holds base log w) (hlive : s.sandbox.root = none) {kind : Option EntryKind}
    (hprobe : w.tree.probe w.cwd s.root = .ok kind) :
    ∃ targets, s.targets.outcome w = (.ok targets, w) ∧ Ascending targets ∧
      ∀ target, target ∈ targets ↔ target ∈ log.map Prod.fst := by
  have hfound : (if kind = some .directory then
      (w.tree.below w.cwd s.root).filterMap fun d => targetOf? d.1 else []) = log.map Prod.fst := by
    by_cases hkind : kind = some .directory
    · subst hkind
      obtain ⟨here, hlocate, -⟩ := Tree.locate_of_probe hprobe
      have hroot : behind s.root [] = s.root := by
        simp [behind]
      obtain rfl : here = base := by
        simpa using h.root.eq_of_locate List.not_mem_nil (hroot.symm ▸ hlocate)
      rw [if_pos rfl, Tree.below, hlocate]
      simp only [List.filterMap_filterMap]
      rw [← h.filterMap_targetOf?, Tree.filesBelow, List.filterMap_filterMap]
      refine List.filterMap_congr fun d hd => ?_
      cases hkind : d.2 with
      | file content => cases namesBelow? here d.1 <;> rfl
      | directory =>
        cases hnames : namesBelow? here d.1 with
        | none => rfl
        | some names => exact targetOf?_eq_none (h.directories d hd hkind names hnames)
    · rw [if_neg hkind]
      cases hlog : log with
      | nil => rfl
      | cons a rest =>
        obtain ⟨here, hlocate, hentry⟩ := h.locate_root (hlog ▸ List.mem_cons_self : a ∈ log)
        have hthere : w.tree.probe w.cwd s.root = .ok (some .directory) := by
          simp [Tree.probe, hlocate, hentry, Entry.kind]
        exact absurd (Except.ok.inj (hprobe.symm.trans hthere)) hkind
  refine ⟨_, Store.outcome_targets hlive hprobe, ascending_eraseDups ?_, fun target => ?_⟩
  · exact List.pairwise_mergeSort (fun a b c => @noLater_trans a b c) noLater_total _
  · rw [List.mem_eraseDups, List.mem_mergeSort, hfound]

end Holds

end Store

end Regraft

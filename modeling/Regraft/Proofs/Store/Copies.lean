import Regraft.Proofs.Files.Mirror
import Regraft.Proofs.Store.UpToDate
/-!
# Stores of dry runs

In a dry run a store writes copies, and looks for them before it looks for its own versions. If it has none of its own,
it finds and writes what a store in place does whose root is that of the copies (`Store.copy`), unless the system refuses
to look for its own ones. So it holds what this one holds (`Store.Keeps`), as long as the copies are not made among the
files of the store itself.

* `Keeps.load`: loading a target gives its versions in the log;
* `Keeps.append`: an append adds a version to the log, or the log stays as it is.
-/
namespace Regraft

open Regraft.Tree (behind namesBelow?)

/-! ## Attempts that follow others -/

namespace Attempt

variable {α β : Type} {w : World}

/-- An attempt comes to what another one comes to, or the system refuses something before anything has changed. -/
def Follows (x y : Attempt α) (w : World) : Prop :=
  x.outcome w = y.outcome w ∨ ∃ refusal, x.outcome w = (.error (.file refusal), w)

theorem Follows.refl (x : Attempt α) (w : World) : x.Follows x w := .inl rfl

/-- Attempts that look and then go on follow each other, if what they go on with does. -/
theorem Follows.bind {x y : Attempt α} {next next' : α → Attempt β} (h : x.Follows y w) (hlooks : y.Looks)
    (hnext : ∀ a, y.outcome w = (.ok a, w) → (next a).Follows (next' a) w) : (x >>= next).Follows (y >>= next') w := by
  rcases h with hsame | ⟨refusal, hrefused⟩
  · have hvalue := hlooks.outcome_eq w
    cases hy : y.value w with
    | error fault =>
      rw [hy] at hvalue
      exact .inl ((outcome_bind_error (hsame.trans hvalue) next).trans (outcome_bind_error hvalue next').symm)
    | ok a =>
      rw [hy] at hvalue
      unfold Follows
      rw [outcome_bind (hsame.trans hvalue) next, outcome_bind hvalue next']
      exact hnext a hvalue
  · exact .inr ⟨refusal, outcome_bind_error hrefused next⟩

/-- Attempts that go on alike follow each other, whatever they have changed. -/
theorem Follows.andThen {x y : Attempt α} (h : x.Follows y w) (next : α → Attempt β) :
    (x >>= next).Follows (y >>= next) w := by
  rcases h with hsame | ⟨refusal, hrefused⟩
  · refine .inl ?_
    cases hy : y.outcome w with
    | mk result w' =>
      cases result with
      | error fault => rw [outcome_bind_error (hsame.trans hy) next, outcome_bind_error hy next]
      | ok a => rw [outcome_bind (hsame.trans hy) next, outcome_bind hy next]
  · exact .inr ⟨refusal, outcome_bind_error hrefused next⟩

end Attempt

/-- The system refuses to look or to write, or the number of a version is too long to be written. -/
inductive Fault.IsRefusal : Fault → Prop where
  | system (refusal : FileFault) : IsRefusal (.file refusal)
  | number : IsRefusal (.key .orderTooLong)

namespace Store

variable {s : Store} {base there : Location} {log : List (Text × Version)} {w w' : World} {target key : Text}
  {records : List Record}

/-! ## Loading -/

/-- The store in place of the copies that a store makes; a store in place is this one itself. -/
def copy (s : Store) : Store := ⟨s.sandbox.mirror s.root, .live s.sandbox.cwd⟩

theorem copy_of_live (hlive : s.sandbox.root = none) : s.copy = s := by
  obtain ⟨root, sandboxRoot, cwd⟩ := s
  obtain rfl : sandboxRoot = none := hlive
  rfl

/-- The system can be asked about all places where a store looks for the versions of a target. -/
def CanLoad (s : Store) (w : World) (target : Text) : Prop :=
  ∃ places, s.sandbox.searchRoots (s.directory target) = .ok places ∧ ∀ p ∈ places, CanLook w p

/-- Nothing is read where there are no artifacts. -/
theorem outcome_readFrom_nothing {name : Text} {dir : Path} {kind : Option EntryKind}
    (hprobe : w.tree.probe w.cwd dir = .ok kind) (hnone : kind = some .directory → w.artifacts dir name = [])
    (seen : List Text) : ∃ files, Attempt.outcome (readFrom name seen dir) w = (.ok (files, []), w) := by
  refine ⟨if kind = some .directory then seen ++ [] else seen, ?_⟩
  refine (Attempt.outcome_bind (outcome_isDirectory hprobe) _).trans ?_
  by_cases hkind : kind = some .directory
  · simp only [hkind, decide_true, if_true]
    refine (Attempt.outcome_bind (Attempt.outcome_request (.children dir) w) _).trans ?_
    have hfiles : ((w.tree.children w.cwd dir).filter fun f => artifactTarget? f = some name && f ∉ seen) = [] := by
      have hnothing := hnone hkind
      rw [World.artifacts, List.filter_eq_nil_iff] at hnothing
      refine List.filter_eq_nil_iff.mpr fun f hf => ?_
      simpa using fun htold => absurd (by simpa using htold) (hnothing f hf)
    simp only [World.answer, hfiles, List.mergeSort_nil]
    rfl
  · simp only [hkind, decide_false, if_false]
    rfl

/-- A dry run looks for a directory among the copies, and then for the directory itself. -/
theorem searchRoots_eq {root : Path} (hdry : s.sandbox.root = some root) (hkey : keyOf target = .ok key) {places : List Path}
    (h : s.sandbox.searchRoots (s.directory key) = .ok places) : places = [s.copy.directory key, s.directory key] := by
  obtain ⟨names, hnames⟩ := exists_keyNames hkey
  have hparent : parentName ∉ names.dropLast := fun hmem => hnames.noParent (List.dropLast_subset _ hmem)
  unfold Sandbox.searchRoots at h
  simp only [hdry] at h
  obtain ⟨mirrored, hmirrored, rfl⟩ := map_eq_ok.mp h
  rw [hnames.directory_eq s] at hmirrored
  rw [Sandbox.resolve_behind hparent hmirrored, hnames.directory_eq s.copy]
  rfl

/-- In a dry run, a store without versions of its own loads the versions among the copies, if it can look for its own
ones. -/
theorem outcome_load_dry {root : Path} (h : s.Vacant there w) (hdry : s.sandbox.root = some root)
    (hkey : keyOf target = .ok key) {places : List Path}
    (hplaces : s.sandbox.searchRoots (s.directory key) = .ok places) :
    (s.load target).outcome w =
      ((versionsAt w (s.copy.directory key) (Path.ofText key).name).bind fun vs =>
        match w.tree.probe w.cwd (s.directory key) with
        | .error refusal => .error (.file refusal)
        | .ok _ => .ok (.build key vs), w) := by
  obtain rfl := searchRoots_eq hdry hkey hplaces
  refine (Attempt.outcome_bind (Attempt.outcome_ofExcept .key hkey w) _).trans ?_
  refine (Attempt.outcome_bind (Attempt.outcome_ofExcept .file hplaces w) _).trans ?_
  obtain ⟨files, hread⟩ := outcome_readFrom (Path.ofText key).name (s.copy.directory key) w
  simp only [List.foldlM_cons, List.foldlM_nil, bind_pure]
  cases hversions : versionsAt w (s.copy.directory key) (Path.ofText key).name with
  | error fault =>
    rw [hversions] at hread
    exact Attempt.outcome_bind_error (Attempt.outcome_bind_error (Attempt.outcome_bind_error hread _) _) _
  | ok vs =>
    rw [hversions] at hread
    have hcopies := Attempt.outcome_bind hread fun found => pure (found.1, [] ++ found.2)
    cases hprobe : w.tree.probe w.cwd (s.directory key) with
    | error refusal =>
      have hrefused : Attempt.outcome (readFrom (Path.ofText key).name files (s.directory key)) w =
          (.error (.file refusal), w) :=
        Attempt.outcome_bind_error (Attempt.outcome_bind_error (Attempt.outcome_probe_error hprobe) _) _
      refine Attempt.outcome_bind_error ((Attempt.outcome_bind hcopies _).trans ?_) _
      exact Attempt.outcome_bind_error hrefused _
    | ok kind =>
      obtain ⟨others, hnothing⟩ := outcome_readFrom_nothing hprobe
        (fun hkind => h.artifacts_eq_nil hkey (hkind ▸ hprobe)) files
      refine (Attempt.outcome_bind ((Attempt.outcome_bind hcopies _).trans
        (Attempt.outcome_bind hnothing fun found => pure (found.1, ([] ++ vs) ++ found.2))) _).trans ?_
      rw [List.append_nil]
      rfl

/-- In a dry run, a store without versions of its own loads what there is among the copies. -/
theorem follows_load (h : s.sandbox.isDry → s.Vacant there w) (hkey : keyOf target = .ok key) :
    (s.load target).Follows (s.copy.load target) w := by
  cases hdry : s.sandbox.root with
  | none => exact copy_of_live hdry ▸ .refl _ _
  | some root =>
    have hvacant := h (by simp [Sandbox.isDry, hdry])
    cases hplaces : s.sandbox.searchRoots (s.directory key) with
    | error refusal =>
      refine .inr ⟨refusal, (Attempt.outcome_bind (Attempt.outcome_ofExcept .key hkey w) _).trans ?_⟩
      change Attempt.outcome (Attempt.ofExcept .file (s.sandbox.searchRoots (s.directory key)) >>= _) w = _
      rw [hplaces]
      rfl
    | ok places =>
      unfold Attempt.Follows
      rw [outcome_load_dry hvacant hdry hkey hplaces, outcome_load (s := s.copy) rfl hkey]
      cases versionsAt w (s.copy.directory key) (Path.ofText key).name with
      | error fault => exact .inl rfl
      | ok vs =>
        cases w.tree.probe w.cwd (s.directory key) with
        | error refusal => exact .inr ⟨refusal, rfl⟩
        | ok kind => exact .inl rfl

/-- It does so whenever the system can be asked about all places. -/
theorem load_eq_copy (h : s.sandbox.isDry → s.Vacant there w) (hkey : keyOf target = .ok target)
    (hlook : s.CanLoad w target) : (s.load target).outcome w = (s.copy.load target).outcome w ∧
      CanLook w (s.copy.directory target) := by
  obtain ⟨places, hplaces, hprobes⟩ := hlook
  cases hdry : s.sandbox.root with
  | none =>
    have hone : s.sandbox.searchRoots (s.directory target) = .ok [s.directory target] := by
      simp [Sandbox.searchRoots, hdry]
    obtain rfl := Except.ok.inj (hone.symm.trans hplaces)
    rw [copy_of_live hdry]
    exact ⟨rfl, hprobes _ List.mem_cons_self⟩
  | some root =>
    obtain rfl := searchRoots_eq hdry hkey hplaces
    obtain ⟨hcopies, hown⟩ := List.forall_mem_cons.mp hprobes
    obtain ⟨kind, hprobe⟩ := hown _ List.mem_cons_self
    refine ⟨?_, hcopies⟩
    rw [outcome_load_dry (h (by simp [Sandbox.isDry, hdry])) hdry hkey hplaces, outcome_load (s := s.copy) rfl hkey, hprobe]
    rfl

/-! ## What a store keeps -/

/-- There is nothing below the root of a store in place. In a dry run there is nothing below the root of the copies nor
below that of the store itself, and these have nothing in common: copies that are made among the files of the store
would be taken for versions of its own. -/
structure Unused (s : Store) (base there : Location) (w : World) : Prop where
  copies : s.copy.Vacant base w
  own : s.sandbox.isDry → s.Vacant there w ∧ Unrelated there base

/-- A store that had nothing in it holds the versions of a log; in a dry run, all of them are copies. -/
structure Keeps (s : Store) (base there : Location) (log : List (Text × Version)) (w : World) : Prop where
  copies : s.copy.Holds base log w
  own : s.sandbox.isDry → s.Vacant there w ∧ Unrelated there base

theorem Vacant.unused (h : s.Vacant base w) (hlive : s.sandbox.root = none) (there : Location) :
    s.Unused base there w :=
  ⟨(copy_of_live hlive).symm ▸ h, fun hdry => by simp [Sandbox.isDry, hlive] at hdry⟩

theorem Unused.keeps (h : s.Unused base there w) : s.Keeps base there [] w := ⟨h.copies.holds, h.own⟩

/-- What is put on the way to a place that has nothing in common with a root is not below the root. -/
theorem Vacant.grow (h : s.Vacant there w) (hapart : Unrelated there base) {tree : Tree} (hlarger : w.tree.Extends tree)
    {names : List Text} (honWay : ∀ d ∈ tree.entries, d ∈ w.tree.entries ∨ d.1 <+: base ++ names) :
    s.Vacant there { w with tree } := by
  refine ⟨h.root.mono hlarger, List.filterMap_eq_nil_iff.mpr fun d hd => ?_⟩
  rcases honWay d hd with hold | hway
  · exact List.filterMap_eq_nil_iff.mp h.empty d hold
  · refine Option.eq_none_iff_forall_ne_some.mpr fun rest hrest => ?_
    obtain ⟨hbelow, -⟩ := Tree.namesBelow?_eq_some_iff.mp hrest
    have hthere : there <+: base ++ names := (List.prefix_append there rest).trans (hbelow ▸ hway)
    exact (List.prefix_or_prefix_of_prefix hthere (List.prefix_append base names)).elim hapart.1 hapart.2

/-- What a store writes goes to the copies. -/
theorem follows_writeText (s : Store) {names : List Text} (hparent : parentName ∉ names) (text : Text) (w : World) :
    (s.sandbox.writeText (behind s.root names) text).Follows
      (s.copy.sandbox.writeText (behind s.copy.root names) text) w := by
  unfold Sandbox.writeText
  cases hplace : s.sandbox.resolve (behind s.root names) with
  | error refusal => exact .inr ⟨refusal, rfl⟩
  | ok place =>
    obtain rfl := Sandbox.resolve_behind hparent hplace
    exact .refl _ w

theorem Fails.isRefusal {v : Version} {fault : Fault} (h : s.Fails w target v fault) : fault.IsRefusal := by
  cases h with
  | looking => exact .system _
  | writing => exact .system _
  | numbering => exact .number

namespace Keeps

theorem setClock (h : s.Keeps base there log w) (clock : Moment) : s.Keeps base there log { w with clock } :=
  ⟨h.copies.setClock clock, fun hdry => ⟨⟨(h.own hdry).1.root, (h.own hdry).1.empty⟩, (h.own hdry).2⟩⟩

/-- Loading a target gives its versions, the oldest first. -/
theorem load (h : s.Keeps base there log w) (htarget : IsTarget target) (hlook : s.CanLoad w target) :
    (s.load target).outcome w = (.ok ⟨target, versionsOf target log⟩, w) := by
  obtain ⟨hload, kind, hprobe⟩ := load_eq_copy (fun hdry => (h.own hdry).1) htarget.fixed hlook
  exact hload.trans (h.copies.outcome_load rfl htarget hprobe)

/-- Loading does so, or the system refuses it. -/
theorem load_cases (h : s.Keeps base there log w) (htarget : IsTarget target) :
    (s.load target).outcome w = (.ok ⟨target, versionsOf target log⟩, w) ∨
      ∃ refusal, (s.load target).outcome w = (.error (.file refusal), w) := by
  rcases follows_load (fun hdry => (h.own hdry).1) htarget.fixed with hsame | hrefused
  · cases hprobe : w.tree.probe w.cwd (s.copy.directory target) with
    | error refusal =>
      rw [hsame, Store.outcome_load (s := s.copy) rfl htarget.fixed, versionsAt, hprobe]
      exact .inr ⟨refusal, rfl⟩
    | ok kind => exact .inl (hsame.trans (h.copies.outcome_load rfl htarget hprobe))
  · exact .inr hrefused

/-- A store in place can be asked for the versions that it has. -/
theorem canLoad (h : s.Keeps base there log w) (hlive : s.sandbox.root = none) {v : Version}
    (hv : v ∈ versionsOf target log) : s.CanLoad w target := by
  have hcopies := h.copies
  rw [copy_of_live hlive] at hcopies
  exact ⟨[s.directory target], by simp [Sandbox.searchRoots, hlive],
    List.forall_mem_singleton.mpr ⟨_, hcopies.probe_directory hv⟩⟩

/-! ## Appending -/

/-- A store appends to its copies. -/
theorem follows_append (h : s.Keeps base there log w) (htarget : IsTarget target) (records : List Record) :
    (s.append target records).Follows (s.copy.append target records) w := by
  have hload : (s.load target).Follows (s.copy.load target) w :=
    follows_load (fun hdry => (h.own hdry).1) htarget.fixed
  refine .bind (.refl _ w) (Attempt.looks_ofExcept .key _) fun key hkey => ?_
  obtain rfl : target = key := by
    rw [htarget.fixed] at hkey
    exact Except.ok.inj (Prod.mk.inj hkey).1
  refine hload.bind (s.copy.looks_load target) fun vs hvs => ?_
  obtain rfl := h.copies.load_eq rfl htarget hvs
  refine .bind (.refl _ w) (fun _ => rfl) fun clock _ => ?_
  have hparent := htarget.keyNames.parentName_not_mem_artifactNames ((versionsOf target log).length + 1)
  rw [h.copies.nextOrder_eq target, artifactPath_eq s htarget.fixed htarget.keyNames,
    artifactPath_eq s.copy htarget.fixed htarget.keyNames]
  split
  · exact .refl _ w
  · exact (follows_writeText s hparent _ w).andThen _

/-- A store makes nothing in the place of its own files when it appends to its copies. -/
theorem vacant_append (h : s.Keeps base there log w) (htarget : IsTarget target) {result : Except Fault Stored}
    (hout : (s.copy.append target records).outcome w = (result, w')) (hlarger : w.tree.Extends w'.tree)
    (hdry : s.sandbox.isDry) : s.Vacant there w' := by
  obtain ⟨hvacant, hapart⟩ := h.own hdry
  rcases append_write rfl hout with ⟨fault, -, rfl, -⟩ | ⟨key, vs, place, hkey, hload, hplace, hwritten⟩
  · exact hvacant
  obtain rfl : target = key := Except.ok.inj (htarget.fixed.symm.trans hkey)
  obtain rfl := h.copies.load_eq rfl htarget hload
  rw [h.copies.nextOrder_eq target] at hplace
  obtain ⟨key, names, -, hnames, -, rfl⟩ := artifactPath_eq_ok hplace
  obtain rfl := (Prod.mk.inj hwritten).2
  exact hvacant.grow hapart hlarger (Tree.onWay_of_write h.copies.root (by simp [artifactNames])
    (hnames.parentName_not_mem_artifactNames _) _)

/-- An append adds the next version of its target to the log, or the system refuses it and the log stays as it is. -/
theorem append (h : s.Keeps base there log w) (htarget : IsTarget target) (hclock : w.clock.IsUniversal)
    (hrecords : ∀ r ∈ records, r.HasShortNumbers) {v : Version} (hv : v = versionBehind log target w.clock records)
    {result : Except Fault Stored} (hout : (s.append target records).outcome w = (result, w')) :
    (∃ fault, result = .error fault ∧ fault.IsRefusal ∧ s.Keeps base there log w') ∨
      result = .ok ⟨v, behind s.copy.root (artifactOf (target, v))⟩ ∧
        s.Keeps base there (log ++ [(target, v)]) w' := by
  rcases h.follows_append htarget records with hsame | ⟨refusal, hrefused⟩
  · have hcopies := hsame.symm.trans hout
    obtain ⟨hlarger, hcases⟩ := h.copies.append rfl htarget hclock hrecords hv hcopies
    have hown : s.sandbox.isDry → s.Vacant there w' ∧ Unrelated there base := fun hdry =>
      ⟨h.vacant_append htarget hcopies hlarger hdry, (h.own hdry).2⟩
    rcases hcases with ⟨fault, hfault, hfails, hheld⟩ | ⟨hstored, hheld⟩
    · exact .inl ⟨fault, hfault, hfails.isRefusal, hheld, hown⟩
    · exact .inr ⟨hstored, hheld, hown⟩
  · obtain ⟨rfl, rfl⟩ := Prod.mk.inj (hrefused.symm.trans hout)
    exact .inl ⟨_, rfl, .system refusal, h⟩

end Keeps

end Store

end Regraft

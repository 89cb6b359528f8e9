import Regraft.Proofs.Store.Holdings
/-!
# Histories of a store

A store that starts with nothing below its root goes through any number of appends, of which some may be refused by the
file system. What it holds at each point are the versions that were stored, numbered from 1 for every target
(`Store.appendAll_spec`).
-/
namespace Regraft

/-- One append: what the clock shows, the target and the records. -/
structure Append where
  clock : Moment
  target : Text
  records : List Record

/-- An append to a target that is its own key, at a moment that can be written, of records that can. -/
structure Append.IsAdmissible (c : Append) : Prop where
  target : IsTarget c.target
  clock : c.clock.IsUniversal
  records : ∀ r ∈ c.records, r.HasShortNumbers

/-- The version that an append makes behind the versions of a log. -/
def Append.version (c : Append) (log : List (Text × Version)) : Version :=
  Store.versionBehind log c.target c.clock c.records

open Regraft.Tree (behind namesBelow?)

namespace Store

/-- Appends one after the other, each with what it came to, and the world behind them. A failed one does not stop the
others. -/
def appendAll (s : Store) : List Append → World → List (Append × Except Fault Stored) × World
  | [], w => ([], w)
  | c :: cs, w =>
    let (result, w) := (s.append c.target c.records).outcome { w with clock := c.clock }
    let (results, w) := s.appendAll cs w
    ((c, result) :: results, w)

/-- The versions that were stored, with their targets. -/
def logOf (results : List (Append × Except Fault Stored)) : List (Text × Version) :=
  results.filterMap fun x => match x.2 with
    | .ok stored => some (x.1.target, stored.version)
    | .error _ => none

theorem logOf_append (first second : List (Append × Except Fault Stored)) :
    logOf (first ++ second) = logOf first ++ logOf second :=
  List.filterMap_append ..

/-- A result that an append can have behind a log: its version is stored, or cannot be. -/
def IsResult (s : Store) (w : World) (log : List (Text × Version)) (c : Append) : Except Fault Stored → Prop
  | .ok stored => stored = ⟨c.version log, behind s.root (artifactOf (c.target, c.version log))⟩
  | .error fault => s.Fails w c.target (c.version log) fault

/-- There is nothing below the root of the store, which is at a location. -/
structure Vacant (s : Store) (base : Location) (w : World) : Prop where
  root : w.tree.RootAt w.cwd s.root base
  empty : w.tree.keysBelow base = []

variable {s : Store} {base : Location} {log : List (Text × Version)} {w : World}

/-- The clock is not part of what a store holds. -/
theorem Holds.setClock (h : s.Holds base log w) (clock : Moment) : s.Holds base log { w with clock } :=
  ⟨h.root, h.targets, h.numbers, h.directories, h.files, h.stored⟩

theorem Vacant.holds (h : s.Vacant base w) : s.Holds base [] w := by
  have hnone : ∀ d ∈ w.tree.entries, namesBelow? base d.1 = none := List.filterMap_eq_nil_iff.mp h.empty
  refine ⟨h.root, by simp, fun _ => rfl, fun d hd _ names hnames => ?_, ?_, by simp⟩
  · rw [hnone d hd] at hnames
    cases hnames
  · refine List.filterMap_eq_nil_iff.mpr fun d hd => ?_
    cases d.2 with
    | file content => exact hnone d hd
    | directory => rfl

/-- One append keeps what is held: the log with its version if there is one. -/
theorem Holds.append_one (h : s.Holds base log w) (hlive : s.sandbox.root = none) {c : Append} (hc : c.IsAdmissible)
    {result : Except Fault Stored} {w' : World}
    (hout : (s.append c.target c.records).outcome { w with clock := c.clock } = (result, w')) :
    s.Holds base (log ++ logOf [(c, result)]) w' ∧ w.tree.Extends w'.tree ∧
      s.IsResult { w with clock := c.clock } log c result := by
  obtain ⟨hlarger, ⟨fault, rfl, hfault, hheld⟩ | ⟨rfl, hheld⟩⟩ :=
    (h.setClock c.clock).append hlive hc.target hc.clock hc.records rfl hout
  · have hnone : logOf [(c, .error fault)] = [] := rfl
    rw [hnone, List.append_nil]
    exact ⟨hheld, hlarger, hfault⟩
  · exact ⟨hheld, hlarger, rfl⟩

/-- The whole history keeps what is held: the log with all versions that were stored. -/
theorem Holds.appendAll (hlive : s.sandbox.root = none) {calls : List Append} :
    ∀ {log : List (Text × Version)} {w : World}, s.Holds base log w → (∀ c ∈ calls, c.IsAdmissible) →
      s.Holds base (log ++ logOf (s.appendAll calls w).1) (s.appendAll calls w).2 ∧
        w.tree.Extends (s.appendAll calls w).2.tree := by
  induction calls with
  | nil =>
    intro log w h _
    exact ⟨by simpa [Store.appendAll, logOf] using h, .refl _⟩
  | cons c calls ih =>
    intro log w h hcalls
    obtain ⟨hc, hothers⟩ := List.forall_mem_cons.mp hcalls
    obtain ⟨hheld, hlarger, -⟩ := h.append_one hlive hc rfl
    obtain ⟨hheld', hlarger'⟩ := ih hheld hothers
    rw [List.append_assoc, ← logOf_append] at hheld'
    exact ⟨hheld', hlarger.trans hlarger'⟩

/-- A history in two parts. -/
theorem appendAll_append (s : Store) (before after : List Append) (w : World) :
    s.appendAll (before ++ after) w = ((s.appendAll before w).1 ++ (s.appendAll after (s.appendAll before w).2).1,
      (s.appendAll after (s.appendAll before w).2).2) := by
  induction before generalizing w with
  | nil => rfl
  | cons c before ih => simp only [List.cons_append, appendAll, ih]

/-- The targets of a history are those it was given. -/
theorem map_appendAll (s : Store) (calls : List Append) (w : World) : (s.appendAll calls w).1.map Prod.fst = calls := by
  induction calls generalizing w with
  | nil => rfl
  | cons c calls ih => simp only [appendAll, List.map_cons, ih]

/-- Appends to other targets store no versions of a target. -/
theorem versionsOf_eq_nil {target : Text} {calls : List Append} (h : ∀ c ∈ calls, c.target ≠ target) :
    versionsOf target (logOf (s.appendAll calls w).1) = [] := by
  refine List.eq_nil_iff_forall_not_mem.mpr fun v hv => ?_
  obtain ⟨⟨c, result⟩, hmem, hstored⟩ := List.mem_filterMap.mp (mem_versionsOf.mp hv)
  have hc : c ∈ calls := map_appendAll s calls w ▸ List.mem_map_of_mem hmem
  cases result with
  | error fault => cases hstored
  | ok stored => exact h c hc (Prod.mk.inj (Option.some.inj hstored)).1

theorem versionsOf_appendAll {target : Text} {before after : List Append} (h : ∀ c ∈ after, c.target ≠ target) :
    versionsOf target (logOf (s.appendAll (before ++ after) w).1) =
      versionsOf target (logOf (s.appendAll before w).1) := by
  rw [appendAll_append, logOf_append, versionsOf_append, versionsOf_eq_nil h, List.append_nil]

/-- A path that the system can be asked about. -/
def CanLook (w : World) (p : Path) : Prop := ∃ kind, w.tree.probe w.cwd p = .ok kind

theorem Holds.canLook_root (h : s.Holds base log w) {a : Text × Version} (ha : a ∈ log) : CanLook w s.root := by
  obtain ⟨here, hlocate, hentry⟩ := h.locate_root ha
  exact ⟨some .directory, by simp [Tree.probe, hlocate, hentry, Entry.kind]⟩

/-- A history of appends, from nothing below the root on. Each of them stores the version that is next for its target,
with its records stamped, unless the system refuses to look or to write there or the number gets too long. What is there at some point stays
as it is. A target that the system can be asked about, as it can for every one that has versions, has just the versions
that were stored for it, the oldest first, whatever is stored for others. And the targets that are listed are those that
have versions, in order. -/
theorem appendAll_spec (s : Store) (hlive : s.sandbox.root = none) {base : Location} {w : World}
    (hvacant : s.Vacant base w) {calls : List Append} (hcalls : ∀ c ∈ calls, c.IsAdmissible) :
    (∀ before c after, calls = before ++ c :: after → ∃ result later,
        (s.appendAll calls w).1 = (s.appendAll before w).1 ++ (c, result) :: later ∧
          s.IsResult { (s.appendAll before w).2 with clock := c.clock } (logOf (s.appendAll before w).1) c result) ∧
      (∀ before after, calls = before ++ after →
        (s.appendAll before w).2.tree.Extends (s.appendAll calls w).2.tree) ∧
      ((∀ target v, (target, v) ∈ logOf (s.appendAll calls w).1 →
          CanLook (s.appendAll calls w).2 (s.directory target) ∧ CanLook (s.appendAll calls w).2 s.root) ∧
        ∀ target clock, IsTarget target → CanLook (s.appendAll calls w).2 (s.directory target) →
          (s.load target).outcome { (s.appendAll calls w).2 with clock } =
            (.ok ⟨target, versionsOf target (logOf (s.appendAll calls w).1)⟩, { (s.appendAll calls w).2 with clock })) ∧
      (∀ target before after, IsTarget target → calls = before ++ after → (∀ c ∈ after, c.target ≠ target) →
        CanLook (s.appendAll before w).2 (s.directory target) → CanLook (s.appendAll calls w).2 (s.directory target) →
          ((s.load target).outcome (s.appendAll calls w).2).1 =
            ((s.load target).outcome (s.appendAll before w).2).1) ∧
      ∀ clock, CanLook (s.appendAll calls w).2 s.root →
        ∃ targets, s.targets.outcome { (s.appendAll calls w).2 with clock } =
            (.ok targets, { (s.appendAll calls w).2 with clock }) ∧ Ascending targets ∧
          ∀ target, target ∈ targets ↔ ∃ v, (target, v) ∈ logOf (s.appendAll calls w).1 := by
  have hholds : ∀ before, (∀ c ∈ before, c.IsAdmissible) →
      s.Holds base (logOf (s.appendAll before w).1) (s.appendAll before w).2 := fun before hbefore =>
    List.nil_append (logOf _) ▸ (Holds.appendAll hlive hvacant.holds hbefore).1
  have hheld := hholds calls hcalls
  refine ⟨?_, ?_, ⟨fun target v hv => ⟨?_, ?_⟩, ?_⟩, ?_, ?_⟩
  · rintro before c after rfl
    obtain ⟨hbefore, hfrom⟩ := List.forall_mem_append.mp hcalls
    rw [appendAll_append]
    exact ⟨_, _, rfl, ((hholds before hbefore).append_one hlive (hfrom c List.mem_cons_self) rfl).2.2⟩
  · rintro before after rfl
    obtain ⟨hbefore, hafter⟩ := List.forall_mem_append.mp hcalls
    rw [appendAll_append]
    exact (Holds.appendAll hlive (hholds before hbefore) hafter).2
  · exact ⟨_, hheld.probe_directory (mem_versionsOf.mpr hv)⟩
  · exact hheld.canLook_root hv
  · rintro target clock htarget ⟨kind, hprobe⟩
    exact (hheld.setClock clock).outcome_load hlive htarget hprobe
  · rintro target before after htarget rfl hother ⟨kind, hprobe⟩ ⟨kind', hprobe'⟩
    have hbefore := hholds before (List.forall_mem_append.mp hcalls).1
    rw [hheld.outcome_load hlive htarget hprobe', hbefore.outcome_load hlive htarget hprobe,
      versionsOf_appendAll hother]
  · rintro clock ⟨kind, hprobe⟩
    obtain ⟨targets, hlist, hascending, hmem⟩ := (hheld.setClock clock).outcome_targets hlive hprobe
    refine ⟨targets, hlist, hascending, fun target => ?_⟩
    rw [hmem target, List.mem_map]
    constructor
    · rintro ⟨⟨t, v⟩, hv, rfl⟩
      exact ⟨v, hv⟩
    · rintro ⟨v, hv⟩
      exact ⟨_, hv, rfl⟩

/-! ## A sample -/

/-- A store in a directory that is not there yet. -/
def sampleStore : Store := ⟨⟨.relative, ["patches"]⟩, .live []⟩

/-- A world without files. -/
def emptyWorld : World where
  tree := {}
  cwd := []
  scratchBase := []
  clock := ⟨2024, 5, 1, 12, 0, 0, 0, some 0⟩

/-- Two versions of one file, and one of another file between them. -/
def sampleCalls : List Append :=
  [⟨emptyWorld.clock, "a.cpp", [{ targetPath := [], kind := .addition, body := ["int a;"] }]⟩,
   ⟨emptyWorld.clock, "lib/b.cpp", []⟩,
   ⟨emptyWorld.clock, "a.cpp", [{ targetPath := [], kind := .deletion, stock := ["int b;"], anchor := 3 }]⟩]

theorem vacant_sampleStore : sampleStore.Vacant [("patches" : Text)] emptyWorld :=
  ⟨.inl ⟨by decide, rfl⟩, rfl⟩

theorem isTarget_sample : IsTarget "a.cpp" ∧ IsTarget "lib/b.cpp" :=
  ⟨⟨by decide, by decide, by decide⟩, ⟨by decide, by decide, by decide⟩⟩

theorem isUniversal_emptyWorld : emptyWorld.clock.IsUniversal := by
  refine ⟨rfl, ?_, ?_, ?_, ?_, ?_, ?_, ?_⟩ <;> decide

theorem isAdmissible_sampleCalls : ∀ c ∈ sampleCalls, c.IsAdmissible := by
  have hclock := isUniversal_emptyWorld
  have hzero : IsShort 0 ∧ IsShort 3 := by
    constructor <;> (unfold IsShort; decide)
  simp only [sampleCalls, List.forall_mem_cons, List.not_mem_nil, false_implies, implies_true, and_true]
  refine ⟨⟨isTarget_sample.1, hclock, ?_⟩, ⟨isTarget_sample.2, hclock, by simp⟩, ⟨isTarget_sample.1, hclock, ?_⟩⟩
  · simpa using ⟨by simp, hzero.1⟩
  · simpa using ⟨by simp, hzero.2⟩

/-- The versions of the sample as they are stored. -/
def sampleLog : List (Text × Version) :=
  [("a.cpp", ⟨1, emptyWorld.clock, [{ targetPath := "a.cpp", kind := .addition, body := ["int a;"], order := 1 }]⟩),
   ("lib/b.cpp", ⟨1, emptyWorld.clock, []⟩),
   ("a.cpp", ⟨2, emptyWorld.clock,
     [{ targetPath := "a.cpp", kind := .deletion, stock := ["int b;"], anchor := 3, order := 2 }]⟩)]

theorem logOf_sample : logOf (sampleStore.appendAll sampleCalls emptyWorld).1 = sampleLog := by
  decide +kernel

theorem appendAll_spec_sample :
    sampleStore.Vacant [("patches" : Text)] emptyWorld ∧ (∀ c ∈ sampleCalls, c.IsAdmissible) ∧
      (sampleStore.load "a.cpp").outcome
          { (sampleStore.appendAll sampleCalls emptyWorld).2 with clock := emptyWorld.clock } =
        (.ok ⟨"a.cpp", versionsOf "a.cpp" sampleLog⟩,
          { (sampleStore.appendAll sampleCalls emptyWorld).2 with clock := emptyWorld.clock }) := by
  have hspec := appendAll_spec sampleStore rfl vacant_sampleStore isAdmissible_sampleCalls
  rw [logOf_sample] at hspec
  have hlook := (hspec.2.2.1.1 "a.cpp" _ List.mem_cons_self).1
  exact ⟨vacant_sampleStore, isAdmissible_sampleCalls, hspec.2.2.1.2 "a.cpp" emptyWorld.clock isTarget_sample.1 hlook⟩

end Store

end Regraft

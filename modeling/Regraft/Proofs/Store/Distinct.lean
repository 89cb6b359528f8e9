import Regraft.Proofs.Store.Copies
/-!
# Generated versions have different changes

A call of `Store.generate` stores a version exactly if its text has segments, and no version of its target has their
changes in their order (`Generation.IsNew`). So all versions of a target have different changes, and a call that is made
again stores nothing.

* `Keeps.call`: what one call comes to, and what the store holds then;
* `Keeps.generateAll`: what a store holds behind a run of calls;
* `Store.generateAll_spec`: the changes of the stored versions, which calls store one, and what becomes of calls that are
  made again.
-/
namespace Regraft

/-! ## Calls -/

namespace Generation

variable {c : Generation} {log : List (Text × Version)} {records : List Record}

/-- The records that a call compares with the stored versions: there are some if its text has segments, and if it can
take lines around them. -/
def records? (c : Generation) : Option (List Record) :=
  match Segment.parse c.tag (Buffer.ofText c.text).lines with
  | .error _ => none
  | .ok segments =>
    if segments.isEmpty || decide (c.context < 0) then none
    else some (buildRecords (Buffer.ofText c.text).lines segments c.target c.context.toNat)

theorem records?_eq_some_iff : c.records? = some records ↔
    ∃ segments, Segment.parse c.tag (Buffer.ofText c.text).lines = .ok segments ∧ segments ≠ [] ∧ 0 ≤ c.context ∧
      buildRecords (Buffer.ofText c.text).lines segments c.target c.context.toNat = records := by
  unfold records?
  cases hparse : Segment.parse c.tag (Buffer.ofText c.text).lines with
  | error e => simp
  | ok segments => by_cases hempty : segments = [] <;> by_cases hcontext : c.context < 0 <;> simp_all

theorem IsAdmissible.hasShortNumbers (h : c.IsAdmissible) (hrecords : c.records? = some records) :
    ∀ r ∈ records, r.HasShortNumbers := by
  obtain ⟨segments, hparse, -, -, rfl⟩ := records?_eq_some_iff.mp hrecords
  exact hasShortNumbers_buildRecords h.text hparse _ _

/-- The text of a call has segments, and no version of its target in a log has their changes in their order. -/
def IsNew (c : Generation) (log : List (Text × Version)) : Prop :=
  ∃ records, c.records? = some records ∧
    ∀ v ∈ versionsOf c.target log, v.identities ≠ records.map Record.identity

theorem IsNew.of_append {more : List (Text × Version)} (h : c.IsNew (log ++ more)) : c.IsNew log := by
  obtain ⟨records, hrecords, hnone⟩ := h
  exact ⟨records, hrecords, fun v hv => hnone v (versionsOf_append c.target log more ▸ List.mem_append_left _ hv)⟩

/-- The version that a call has stored, with its target. -/
def stored (c : Generation) : Except Fault Store.Generated → List (Text × Version)
  | .ok ⟨_, _, some stored⟩ => [(c.target, stored.version)]
  | _ => []

end Generation

/-- No two versions of a target in a log have the same changes in the same order. -/
def DistinctChanges (log : List (Text × Version)) : Prop :=
  ∀ target, ((versionsOf target log).map Version.identities).Nodup

theorem DistinctChanges.concat {log : List (Text × Version)} (h : DistinctChanges log) {target : Text} {v : Version}
    (hnew : ∀ u ∈ versionsOf target log, u.identities ≠ v.identities) : DistinctChanges (log ++ [(target, v)]) := by
  intro other
  rw [versionsOf_append, List.map_append]
  by_cases hsame : target = other
  · subst hsame
    have hone : versionsOf target [(target, v)] = [v] := by
      simp [versionsOf]
    rw [hone, List.map_singleton]
    refine List.nodup_append.mpr ⟨h target, List.nodup_singleton _, fun changes hchanges _ hmem heq => ?_⟩
    obtain ⟨u, hu, rfl⟩ := List.mem_map.mp hchanges
    exact hnew u hu (heq.trans (List.mem_singleton.mp hmem))
  · have hnil : versionsOf other [(target, v)] = [] := by
      simp [versionsOf, hsame]
    rw [hnil, List.map_nil, List.append_nil]
    exact h other

namespace Store

variable {s : Store} {base there : Location} {log : List (Text × Version)} {w w' : World} {c : Generation}
  {r : Except Fault Generated}

/-- The changes of records are those of the version that they are stored in. -/
theorem identities_versionBehind (log : List (Text × Version)) (target : Text) (clock : Moment) (records : List Record) :
    (versionBehind log target clock records).identities = records.map Record.identity :=
  List.map_map ..

/-! ## One call -/

/-- What a call comes to behind the versions of a log. -/
inductive Turn (c : Generation) (log : List (Text × Version)) (w : World) : Except Fault Generated → World → Prop where
  | plain {r : Except Fault Generated} (hnone : c.records? = none) (hstored : c.stored r = []) :
      Turn c log w r { w with clock := c.clock }
  | known {records : List Record} {found : Version} (hrecords : c.records? = some records)
      (hfound : found ∈ versionsOf c.target log) (hsame : found.identities = records.map Record.identity) :
      Turn c log w (.ok ⟨c.target, found.records, none⟩) { w with clock := c.clock }
  | stored {records : List Record} {v : Version} {place : Path} {w' : World} (hrecords : c.records? = some records)
      (hnew : ∀ u ∈ versionsOf c.target log, u.identities ≠ v.identities)
      (hv : v.identities = records.map Record.identity) (hwritten : w'.tree ≠ w.tree) :
      Turn c log w (.ok ⟨c.target, v.records, some ⟨v, place⟩⟩) w'
  | refused {fault : Fault} {w' : World} (hrefusal : fault.IsRefusal)
      (hworld : ¬ c.IsNew log → w' = { w with clock := c.clock }) : Turn c log w (.error fault) w'

/-- A call whose text has nothing to record stores nothing. -/
theorem generateOne_plain (hnone : c.records? = none) (hrun : s.generateOne c w = (r, w')) :
    w' = { w with clock := c.clock } ∧ c.stored r = [] := by
  unfold generateOne generate at hrun
  rcases Attempt.bind_ofExcept_cases hrun with ⟨e, -, rfl, rfl⟩ | ⟨key, -, hrun⟩
  · exact ⟨rfl, rfl⟩
  rcases Attempt.bind_ofExcept_cases hrun with ⟨e, -, rfl, rfl⟩ | ⟨segments, hparse, hrun⟩
  · exact ⟨rfl, rfl⟩
  simp only [Generation.records?, hparse] at hnone
  cases hempty : segments.isEmpty with
  | true =>
    simp only [hempty, if_true] at hrun
    obtain ⟨rfl, rfl⟩ := Prod.mk.inj hrun
    exact ⟨rfl, rfl⟩
  | false =>
    have hcontext : c.context < 0 := by
      simpa [hempty] using hnone
    simp only [hempty, checkContext, if_pos hcontext] at hrun
    obtain ⟨rfl, rfl⟩ := Prod.mk.inj hrun
    exact ⟨rfl, rfl⟩

theorem Holds.length_eq {log' : List (Text × Version)} (h : s.Holds base log w) (h' : s.Holds base log' w')
    (htree : w'.tree = w.tree) : log'.length = log.length := by
  have hfiles := h'.files
  rw [htree, h.files] at hfiles
  simpa using congrArg List.length hfiles.symm

/-- A call with new changes stores them in the next version of its target, or the system refuses it. -/
theorem Keeps.call_new (h : s.Keeps base there log { w with clock := c.clock }) (htarget : IsTarget c.target)
    (hc : c.IsAdmissible) {records : List Record} (hrecords : c.records? = some records)
    (hnew : ∀ u ∈ versionsOf c.target log, u.identities ≠ records.map Record.identity)
    (hrun : Attempt.outcome (s.append c.target records >>= fun stored =>
      pure (⟨c.target, stored.version.records, some stored⟩ : Generated)) { w with clock := c.clock } = (r, w')) :
    Turn c log w r w' ∧ s.Keeps base there (log ++ c.stored r) w' := by
  have hshort := hc.hasShortNumbers hrecords
  rcases Attempt.bind_cases hrun with ⟨fault, happend, rfl⟩ | ⟨stored, w₁, happend, hend⟩
  · rcases h.append htarget hc.clock hshort rfl happend with ⟨_, hfault, hrefusal, hheld⟩ | ⟨hfault, -⟩
    · obtain rfl := Except.error.inj hfault
      exact ⟨.refused hrefusal fun hold => absurd ⟨records, hrecords, hnew⟩ hold, (List.append_nil log).symm ▸ hheld⟩
    · cases hfault
  · obtain ⟨rfl, rfl⟩ := Prod.mk.inj hend
    rcases h.append htarget hc.clock hshort rfl happend with ⟨fault, hfault, -⟩ | ⟨hstored, hheld⟩
    · cases hfault
    · obtain rfl := Except.ok.inj hstored
      have hchanges := identities_versionBehind log c.target c.clock records
      refine ⟨.stored hrecords (hchanges.symm ▸ hnew) hchanges fun htree => ?_, hheld⟩
      have hlength := h.copies.length_eq hheld.copies htree
      simp at hlength

/-- One call adds its version to the log, or the log stays as it is. -/
theorem Keeps.call (h : s.Keeps base there log w) (htarget : IsTarget c.target) (hc : c.IsAdmissible)
    (hrun : s.generateOne c w = (r, w')) : Turn c log w r w' ∧ s.Keeps base there (log ++ c.stored r) w' := by
  have hkept := h.setClock c.clock
  cases hrecords : c.records? with
  | none =>
    obtain ⟨rfl, hstored⟩ := generateOne_plain hrecords hrun
    rw [hstored, List.append_nil]
    exact ⟨.plain hrecords hstored, hkept⟩
  | some records =>
    obtain ⟨segments, hparse, hguarded, hwindow, rfl⟩ := Generation.records?_eq_some_iff.mp hrecords
    rcases hkept.load_cases htarget with hload | ⟨refusal, hload⟩
    · have hrecordable : s.Recordable { w with clock := c.clock } c.tag c.context c.text c.target c.target segments _ :=
        ⟨htarget.fixed, hparse, hguarded, hwindow, hload⟩
      cases hfind : VersionSet.findIdentical? ⟨c.target, versionsOf c.target log⟩
          (buildRecords (Buffer.ofText c.text).lines segments c.target c.context.toNat) with
      | some found =>
        obtain ⟨hfound, hsame⟩ := VersionSet.identical_of_find hfind
        obtain ⟨rfl, rfl⟩ := Prod.mk.inj ((generate_found hrecordable hfind).symm.trans hrun)
        exact ⟨.known hrecords hfound hsame, (List.append_nil log).symm ▸ hkept⟩
      | none =>
        exact hkept.call_new htarget hc hrecords (fun u hu => by simpa using List.find?_eq_none.mp hfind u hu)
          ((generate_new hrecordable hfind).symm.trans hrun)
    · have hrefused := (outcome_generate htarget.fixed hparse hguarded hwindow _).symm.trans hrun
      obtain ⟨rfl, rfl⟩ := Prod.mk.inj ((Attempt.outcome_bind_error hload _).symm.trans hrefused)
      exact ⟨.refused (.system refusal) fun _ => rfl, (List.append_nil log).symm ▸ hkept⟩

namespace Turn

/-- A call keeps the changes of the versions of every target apart. -/
theorem distinctChanges (h : Turn c log w r w') (hlog : DistinctChanges log) : DistinctChanges (log ++ c.stored r) := by
  cases h with
  | plain hnone hstored => rwa [hstored, List.append_nil]
  | known => exact (List.append_nil log).symm ▸ hlog
  | stored hrecords hnew => exact hlog.concat hnew
  | refused => exact (List.append_nil log).symm ▸ hlog

/-- Behind a call that is not refused, its changes are not new. -/
theorem not_isNew (h : Turn c log w r w') (hr : ∀ fault, r = .error fault → ¬fault.IsRefusal) :
    ¬ c.IsNew (log ++ c.stored r) := by
  rintro ⟨records, hrecords, hnew⟩
  rw [versionsOf_append] at hnew
  cases h with
  | plain hnone => cases hnone.symm.trans hrecords
  | known hrecords' hfound hsame =>
    obtain rfl := Option.some.inj (hrecords'.symm.trans hrecords)
    exact hnew _ (List.mem_append_left _ hfound) hsame
  | @stored _ v _ _ hrecords' _ hv _ =>
    obtain rfl := Option.some.inj (hrecords'.symm.trans hrecords)
    exact hnew v (List.mem_append_right _ (mem_versionsOf.mpr List.mem_cons_self)) hv
  | refused hrefusal => exact hr _ rfl hrefusal

/-- A call whose changes are not new changes nothing. -/
theorem unchanged (h : Turn c log w r w') (hold : ¬ c.IsNew log) :
    w' = { w with clock := c.clock } ∧ c.stored r = [] := by
  cases h with
  | plain hnone hstored => exact ⟨rfl, hstored⟩
  | known => exact ⟨rfl, rfl⟩
  | stored hrecords hnew hv => exact absurd ⟨_, hrecords, hv ▸ hnew⟩ hold
  | refused hrefusal hworld => exact ⟨hworld hold, rfl⟩

/-- A call with new changes stores them, unless it is refused. -/
theorem stores (h : Turn c log w r w') (hr : ∀ fault, r = .error fault → ¬fault.IsRefusal) (hnew : c.IsNew log) :
    w'.tree ≠ w.tree ∧ ∃ v records, c.records? = some records ∧ v.identities = records.map Record.identity ∧
      c.stored r = [(c.target, v)] := by
  obtain ⟨records, hrecords, hnone⟩ := hnew
  cases h with
  | plain hnone => cases hnone.symm.trans hrecords
  | known hrecords' hfound hsame =>
    obtain rfl := Option.some.inj (hrecords'.symm.trans hrecords)
    exact absurd hsame (hnone _ hfound)
  | stored hrecords' _ hv hwritten => exact ⟨hwritten, _, _, hrecords', hv, rfl⟩
  | refused hrefusal => exact absurd hrefusal (hr _ rfl)

end Turn

/-! ## Runs -/

/-- The versions that calls store, with their targets. -/
def storedBy (s : Store) : List Generation → World → List (Text × Version)
  | [], _ => []
  | c :: calls, w => c.stored (s.generateOne c w).1 ++ s.storedBy calls (s.generateOne c w).2

theorem storedBy_append (s : Store) (before after : List Generation) (w : World) :
    s.storedBy (before ++ after) w = s.storedBy before w ++ s.storedBy after (s.generateAll before w) := by
  induction before generalizing w with
  | nil => rfl
  | cons c before ih =>
    simp only [List.cons_append, storedBy, ih, List.append_assoc]
    rfl

/-- A run of calls keeps what is held: the log with all versions that were stored. Their changes stay apart. -/
theorem Keeps.generateAll {calls : List Generation} : ∀ {log : List (Text × Version)} {w : World},
    s.Keeps base there log w → DistinctChanges log → (∀ c ∈ calls, IsTarget c.target ∧ c.IsAdmissible) →
      s.Keeps base there (log ++ s.storedBy calls w) (s.generateAll calls w) ∧
        DistinctChanges (log ++ s.storedBy calls w) := by
  induction calls with
  | nil =>
    intro log w h hlog _
    rw [storedBy, List.append_nil]
    exact ⟨h, hlog⟩
  | cons c calls ih =>
    intro log w h hlog hcalls
    obtain ⟨⟨htarget, hc⟩, hothers⟩ := List.forall_mem_cons.mp hcalls
    obtain ⟨hturn, hkept⟩ := h.call htarget hc rfl
    rw [storedBy, ← List.append_assoc]
    exact ih hkept (hturn.distinctChanges hlog) hothers

/-- A run of calls from an empty store on, in place or in a dry run, at any moments, of any texts with any tags. Of every
target the stored versions have the numbers 1, 2, 3 and so on, and no two of them have the same changes in the same
order; they are what is loaded, if the system can be asked for them. A call that the system does not refuse stores the
changes of its text if there are any, and no version of its target has them in their order; otherwise it changes nothing.
And a call that is made again, whatever has come between, changes nothing. -/
theorem generateAll_spec (s : Store) {base there : Location} {w : World} (hunused : s.Unused base there w)
    {calls : List Generation} (hcalls : ∀ c ∈ calls, IsTarget c.target ∧ c.IsAdmissible) :
    (∀ target, (versionsOf target (s.storedBy calls w)).map Version.order =
          numbersTo (versionsOf target (s.storedBy calls w)).length ∧
        ((versionsOf target (s.storedBy calls w)).map Version.identities).Nodup ∧
        (s.sandbox.root = none → versionsOf target (s.storedBy calls w) ≠ [] → s.CanLoad (s.generateAll calls w) target) ∧
        ∀ clock, IsTarget target → s.CanLoad (s.generateAll calls w) target →
          (s.load target).outcome { s.generateAll calls w with clock } =
            (.ok ⟨target, versionsOf target (s.storedBy calls w)⟩, { s.generateAll calls w with clock })) ∧
      ∀ before c after, calls = before ++ c :: after → ∀ r w', s.generateOne c (s.generateAll before w) = (r, w') →
        (∃ fault, r = .error fault ∧ fault.IsRefusal) ∨
          (c.IsNew (s.storedBy before w) → w'.tree ≠ (s.generateAll before w).tree ∧
              ∃ v records, c.records? = some records ∧ v.identities = records.map Record.identity ∧
                s.storedBy (before ++ [c]) w = s.storedBy before w ++ [(c.target, v)]) ∧
            (¬ c.IsNew (s.storedBy before w) → w' = { s.generateAll before w with clock := c.clock } ∧
              s.storedBy (before ++ [c]) w = s.storedBy before w) ∧
            ∀ clock : Moment, clock.IsUniversal → ∃ again, s.generateOne { c with clock } (s.generateAll calls w) =
              (again, { s.generateAll calls w with clock }) ∧ c.stored again = [] := by
  have hkeeps : ∀ calls : List Generation, (∀ c ∈ calls, IsTarget c.target ∧ c.IsAdmissible) →
      s.Keeps base there (s.storedBy calls w) (s.generateAll calls w) ∧ DistinctChanges (s.storedBy calls w) :=
    fun calls hcalls => Keeps.generateAll hunused.keeps (fun _ => List.nodup_nil) hcalls
  obtain ⟨hkept, hdistinct⟩ := hkeeps calls hcalls
  refine ⟨fun target => ⟨hkept.copies.numbers target, hdistinct target, fun hlive hsome => ?_, fun clock htarget hlook =>
    (hkept.setClock clock).load htarget hlook⟩, ?_⟩
  · obtain ⟨v, hv⟩ := List.exists_mem_of_ne_nil _ hsome
    exact hkept.canLoad hlive hv
  rintro before c after rfl r w' hrun
  obtain ⟨hbefore, hfrom⟩ := List.forall_mem_append.mp hcalls
  obtain ⟨⟨htarget, hc⟩, -⟩ := List.forall_mem_cons.mp hfrom
  obtain ⟨hturn, -⟩ := (hkeeps before hbefore).1.call htarget hc hrun
  by_cases hrefused : ∃ fault, r = .error fault ∧ fault.IsRefusal
  · exact .inl hrefused
  have hr : ∀ fault, r = .error fault → ¬fault.IsRefusal := fun fault hfault hrefusal =>
    hrefused ⟨fault, hfault, hrefusal⟩
  have hstored : s.storedBy (before ++ [c]) w = s.storedBy before w ++ c.stored r := by
    rw [storedBy_append, storedBy, storedBy, List.append_nil, hrun]
  refine .inr ⟨fun hnew => ?_, fun hold => ?_, fun clock hclock => ?_⟩
  · obtain ⟨htree, v, records, hrecords, hv, hone⟩ := hturn.stores hr hnew
    exact ⟨htree, v, records, hrecords, hv, hone ▸ hstored⟩
  · obtain ⟨hworld, hnothing⟩ := hturn.unchanged hold
    exact ⟨hworld, by rw [hstored, hnothing, List.append_nil]⟩
  · -- the versions of the run come behind those there were when the call was made first
    have hold : ¬ c.IsNew (s.storedBy (before ++ c :: after) w) := by
      intro hnew
      rw [List.append_cons, storedBy_append, hstored] at hnew
      exact hturn.not_isNew hr hnew.of_append
    obtain ⟨hagain, -⟩ := hkept.call (c := { c with clock }) htarget ⟨hclock, hc.text⟩ rfl
    obtain ⟨hworld, hnothing⟩ := hagain.unchanged hold
    exact ⟨_, Prod.ext rfl hworld, hnothing⟩

/-! ## A sample -/

/-- The store of a dry run, with its copies elsewhere. -/
def dryStore : Store := ⟨sampleStore.root, ⟨some ⟨.slash, ["dry"]⟩, []⟩⟩

/-- A text, and another one. -/
def sampleRun : List Generation := [sampleGeneration "one", sampleGeneration "two"]

/-- What the sample stores. -/
def sampleRunLog : List (Text × Version) := [("a.c", sampleVersionOf 1 "one"), ("a.c", sampleVersionOf 2 "two")]

theorem unused_dryStore : dryStore.Unused ["dry", "patches"] ["patches"] emptyWorld := by
  refine ⟨⟨.inl ⟨by decide, rfl⟩, rfl⟩, fun _ => ⟨⟨.inl ⟨by decide, rfl⟩, rfl⟩, ?_⟩⟩
  unfold Unrelated
  decide

theorem isAdmissible_sampleRun : ∀ c ∈ sampleRun, IsTarget c.target ∧ c.IsAdmissible := by
  simp only [sampleRun, List.forall_mem_cons, List.not_mem_nil, false_implies, implies_true, and_true]
  exact ⟨⟨isTarget_sampleGeneration, isAdmissible_sampleGeneration (by decide)⟩,
    isTarget_sampleGeneration, isAdmissible_sampleGeneration (by decide)⟩

/-- Both stores come to the log of the sample. In the dry run the first call succeeds, and behind the calls there are
copies and no originals. -/
theorem outcomes_sampleRun :
    (sampleStore.storedBy sampleRun emptyWorld = sampleRunLog ∧
      dryStore.storedBy sampleRun emptyWorld = sampleRunLog) ∧
    (dryStore.generateOne (sampleGeneration "one") emptyWorld).1.toOption.isSome = true ∧
      dryStore.sandbox.searchRoots (dryStore.directory "a.c") =
        .ok [dryStore.copy.directory "a.c", dryStore.directory "a.c"] ∧
      (dryStore.generateAll sampleRun emptyWorld).tree.probe (dryStore.generateAll sampleRun emptyWorld).cwd
        (dryStore.copy.directory "a.c") = .ok (some .directory) ∧
      (dryStore.generateAll sampleRun emptyWorld).tree.probe (dryStore.generateAll sampleRun emptyWorld).cwd
        (dryStore.directory "a.c") = .ok none := by
  -- in one evaluation, since all of it comes from the same calls
  decide +kernel

theorem canLoad_sampleRun : dryStore.CanLoad (dryStore.generateAll sampleRun emptyWorld) "a.c" := by
  obtain ⟨-, -, hplaces, hcopies, hown⟩ := outcomes_sampleRun
  exact ⟨_, hplaces, by simpa using ⟨⟨_, hcopies⟩, ⟨_, hown⟩⟩⟩

theorem generateAll_spec_sample :
    (∀ c ∈ sampleRun, IsTarget c.target ∧ c.IsAdmissible) ∧
      sampleStore.Unused ["patches"] [] emptyWorld ∧
      (sampleStore.load "a.c").outcome { sampleStore.generateAll sampleRun emptyWorld with clock := emptyWorld.clock } =
        (.ok ⟨"a.c", versionsOf "a.c" sampleRunLog⟩,
          { sampleStore.generateAll sampleRun emptyWorld with clock := emptyWorld.clock }) ∧
      dryStore.Unused ["dry", "patches"] ["patches"] emptyWorld ∧
      (dryStore.load "a.c").outcome { dryStore.generateAll sampleRun emptyWorld with clock := emptyWorld.clock } =
        (.ok ⟨"a.c", versionsOf "a.c" sampleRunLog⟩,
          { dryStore.generateAll sampleRun emptyWorld with clock := emptyWorld.clock }) ∧
      ∃ again, dryStore.generateOne (sampleGeneration "one") (dryStore.generateAll sampleRun emptyWorld) =
        (again, { dryStore.generateAll sampleRun emptyWorld with clock := emptyWorld.clock }) ∧
          (sampleGeneration "one").stored again = [] := by
  have hunused : sampleStore.Unused ["patches"] [] emptyWorld := vacant_sampleStore.unused rfl []
  obtain ⟨⟨hlog, hdryLog⟩, hdone, -⟩ := outcomes_sampleRun
  obtain ⟨-, -, hlook, hload⟩ := (generateAll_spec sampleStore hunused isAdmissible_sampleRun).1 "a.c"
  obtain ⟨hversions, hcalls⟩ := generateAll_spec dryStore unused_dryStore isAdmissible_sampleRun
  have hdryLoad := (hversions "a.c").2.2.2 emptyWorld.clock isTarget_sampleGeneration canLoad_sampleRun
  rw [hlog] at hlook hload
  rw [hdryLog] at hdryLoad
  refine ⟨isAdmissible_sampleRun, hunused, hload emptyWorld.clock isTarget_sampleGeneration (hlook rfl (by decide)),
    unused_dryStore, hdryLoad, ?_⟩
  cases hrun : dryStore.generateOne (sampleGeneration "one") emptyWorld with
  | mk r w' =>
    rw [hrun] at hdone
    rcases hcalls [] _ _ rfl r w' hrun with ⟨fault, hfault, -⟩ | ⟨-, -, hagain⟩
    · rw [hfault] at hdone
      cases hdone
    · exact hagain emptyWorld.clock isUniversal_emptyWorld

end Store

end Regraft

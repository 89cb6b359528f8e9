import Regraft.Proofs.Run.Effect
import Regraft.Proofs.Splice.Sources
import Regraft.Proofs.Store.Faults
import Regraft.Run.Summary
/-!
# Faults stay with their files

A fault becomes the outcome of the file that it is a fault of, and the run goes on with the next file. That is so for
every fault of a job that its action can manage (`Session.Manages`): the guards of the file, what its artifacts hold and
whether they fit, and what the file system refuses may all be wrong. What an action cannot manage ends the run: a target
without a key, an artifact whose parts stand too deep in each other, a record that cannot be written or reached, a number
that is too long.

* `Session.yields_perform`: an action comes to an outcome, or to a fault of the file;
* `Session.exists_outcome`: in either case the job has an outcome;
* `Session.run_isolates`: a run has one outcome for each of its jobs and each target that rules skip;
* `Session.run_stopped`: a file whose name starts with a backslash keeps another one from being processed.
-/
namespace Regraft

/-! ## Reports -/

namespace Conflict

theorem fitsPath_fileName (targetPath : Text) : (fileName targetPath).FitsPath :=
  (fitsPath_slug slugStyle ((Text.isWhole_ofString _).fitsPath (by decide)) targetPath).append
    ((Text.isWhole_ofString _).fitsPath (by decide))

theorem isWhole_fileText (report : Conflict Float) : report.fileText.IsWhole :=
  Text.isWhole_append.mpr ⟨(Json.allTexts_of_forall Json.isWhole_quoteAscii _).isWhole_indented 0, by simp⟩

end Conflict

/-! ## Changes -/

theorem ContentFault.OfFile.ofJob {p : Path} {fault : ContentFault} (h : fault.OfFile) : (Fault.content p fault).OfJob := by
  cases h with
  | malformed e => exact .inr rfl
  | conflict report => exact .inl rfl
  | splice e => exact .inr rfl

namespace Change

variable {s : Sandbox} {p : Path} (w : World)

/-- A change that can be written. -/
structure IsFit (c : Change) : Prop where
  path : c.path.IsFit
  content : c.content.IsWhole

theorem yields_ofClear (hs : s.IsFit) (hp : s.isDry = true → p.IsFit) (tag : Tag) :
    (ofClear s tag p).Yields w IsFit Fault.OfJob := by
  refine (s.looks_readText p).yields_bind (Sandbox.yields_readText w hs hp) fun before _ hbefore => ?_
  rcases clearedContent_total tag hbefore.1 with ⟨content, hcontent, hwhole⟩ | ⟨fault, hfault, hfile⟩
  · exact Attempt.yields_bind_ok hcontent (Attempt.ends_pure ⟨hbefore.2, hwhole⟩)
  · exact Attempt.yields_bind_error hfault hfile.ofJob

theorem yields_ofApply (hs : s.IsFit) (hp : s.isDry = true → p.IsFit) {tag : Tag} (htag : tag.text.IsWhole)
    (m : Matching Float) {versions : VersionSet} (hversions : versions.versions ≠ [])
    (hrecords : ∀ v ∈ versions.versions, ∀ r ∈ v.records, r.IsWhole ∧
      ∀ text, (s.readText p).value w = .ok text → r.InReach text.length) :
    (ofApply s tag m p versions).Yields w IsFit Fault.OfJob := by
  refine (s.looks_readText p).yields_bind (Sandbox.yields_readText w hs hp) fun before hread hbefore => ?_
  have hrecords' := fun v hv r hr => (hrecords v hv r hr).imp_right fun hreach => hreach before hread
  rcases appliedContent_total htag m hbefore.1 hversions hrecords' with
    ⟨content, order, hcontent, hwhole⟩ | ⟨fault, hfault, hfile⟩
  · exact Attempt.yields_bind_ok hcontent (Attempt.ends_pure ⟨hbefore.2, hwhole⟩)
  · exact Attempt.yields_bind_error hfault hfile.ofJob

/-- A change is written, or the system refuses. -/
theorem yields_committed (hs : s.IsFit) {x : Attempt Change} (hx : x.Yields w IsFit Fault.OfJob) (action : Action) :
    Attempt.Yields (do let change ← x; return (change, ← change.commit s action)) w (fun _ => True) Fault.OfJob := by
  refine hx.bind fun c w₁ hc => ?_
  refine Attempt.Yields.bind (R := fun _ => True) ?_ fun _ _ _ => Attempt.ends_pure trivial
  unfold commit
  split
  · exact Attempt.ends_pure trivial
  · have hwrite := (Sandbox.yields_writeText w₁ hs hc.path hc.content).mono (fun _ h => h)
      fun _ => Fault.ofJob_of_bySystem
    exact hwrite.bind fun _ _ _ => Attempt.ends_journal _ (Attempt.ends_pure trivial)

end Change

/-! ## Actions -/

/-- An outcome is that of a job. -/
structure Outcome.Of (o : Outcome) (action : Action) (job : Job) : Prop where
  targetPath : o.targetPath = job.targetPath
  action : o.action = action
  destination : o.destination = some job.destination

namespace Session

variable {s : Session} {action : Action} {job : Job} (w : World)

/-- The paths and the tag of a session can be written. -/
structure IsFit (s : Session) : Prop where
  patchRoot : s.settings.patchRoot.IsFit
  sandbox : s.sandbox.IsFit
  conflictDir : ∀ directory ∈ s.settings.conflictDir, directory.IsFit
  tag : s.settings.guardTag.text.IsWhole

theorem IsFit.store (hs : s.IsFit) : s.store.IsFit := ⟨hs.patchRoot, hs.sandbox⟩

/-- What an action asks of a job, so that all that goes wrong with it is a fault of its file. In a dry run, the file and
the key have to be fit. Applying needs a key and artifacts that can be told, with whole records whose anchors the file
can reach. Generating needs, for a file with guards, a key that can be written and artifacts that can be told, whose
numbers have a successor. -/
def Manages (s : Session) (w : World) (action : Action) (job : Job) : Prop :=
  (s.sandbox.isDry = true → job.file.IsFit) ∧
    match action with
    | .generate => ∀ text, (s.sandbox.readText job.file).value w = .ok text → s.settings.guardTag.mentions text = true →
        ∃ key, keyOf job.targetPath = .ok key ∧ Store.IsKey key ∧ s.store.Legible w key Store.HasSuccessor
    | .apply => ∃ key, keyOf job.targetPath = .ok key ∧ (s.sandbox.isDry = true → key.FitsPath) ∧
        s.store.Legible w key fun v => ∀ r ∈ v.records, r.IsWhole ∧
          ∀ text, (s.sandbox.readText job.file).value w = .ok text → r.InReach text.length
    | .clear => True

theorem yields_readGuarded (hs : s.IsFit) {p : Path} (hp : s.sandbox.isDry = true → p.IsFit) :
    (s.readGuarded p).Yields w
      (fun text? => ∀ text ∈ text?, (s.sandbox.readText p).value w = .ok text ∧ text.IsWhole) Fault.OfJob := by
  have hread := (s.sandbox.looks_readText p).yields_value (Sandbox.yields_readText w hs.sandbox hp)
  refine Attempt.yields_tried hread (fun text _ h => ?_) fun fault _ h => ?_
  · exact Attempt.ends_pure fun _ heq => Option.some.inj heq ▸ ⟨h.1, h.2.1⟩
  · cases fault with
    | undecodable => exact Attempt.ends_pure fun _ heq => absurd heq (by simp)
    | _ => exact Attempt.ends_throw h

theorem yields_generate (hs : s.IsFit) (h : s.Manages w .generate job) :
    (s.generate job).Yields w (fun p => p.outcome.Of .generate job) Fault.OfJob := by
  obtain ⟨hfile, hguarded⟩ := h
  refine (s.looks_readGuarded job.file).yields_bind (yields_readGuarded w hs hfile) fun text? _ htext => ?_
  cases text? with
  | none => exact Attempt.ends_pure ⟨rfl, rfl, rfl⟩
  | some text =>
    simp only
    split
    · exact Attempt.ends_pure ⟨rfl, rfl, rfl⟩
    · rename_i hmentions
      obtain ⟨hread, hwhole⟩ := htext text rfl
      obtain ⟨key, hkey, hself, hlegible⟩ := hguarded text hread (by simpa using hmentions)
      refine (Store.yields_generate w hs.store hkey hself _ _ hwhole hlegible).bind fun g w₁ _ => ?_
      cases g.stored with
      | none => exact Attempt.ends_pure ⟨rfl, rfl, rfl⟩
      | some stored => exact Attempt.ends_journal _ (Attempt.ends_pure ⟨rfl, rfl, rfl⟩)

theorem yields_requireFile (hs : s.IsFit) (hfile : s.sandbox.isDry = true → job.file.IsFit) :
    (s.requireFile job).Yields w (fun _ => True) Fault.OfJob := by
  refine (s.sandbox.looks_isThere job.file).yields_bind (Sandbox.yields_isThere w hs.sandbox hfile)
    fun found _ _ => ?_
  cases found with
  | true => exact Attempt.ends_pure trivial
  | false => exact Attempt.ends_throw (.inr rfl)

theorem yields_apply (hs : s.IsFit) (h : s.Manages w .apply job) :
    (s.apply job).Yields w (fun p => p.outcome.Of .apply job) Fault.OfJob := by
  obtain ⟨hfile, key, hkey, hfit, hlegible⟩ := h
  refine (s.looks_requireFile job).yields_bind (yields_requireFile w hs hfile) fun _ _ _ => ?_
  refine (s.store.looks_load job.targetPath).yields_bind (Store.yields_load w hs.store hkey hfit hlegible)
    fun versions _ hversions => ?_
  split
  · exact Attempt.ends_pure ⟨rfl, rfl, rfl⟩
  · rename_i hempty
    have hchange := Change.yields_ofApply w hs.sandbox hfile hs.tag s.matching
      (fun hnil => hempty (List.isEmpty_iff.mpr hnil)) hversions
    refine (Change.yields_committed w hs.sandbox hchange .apply).bind fun done _ _ => ?_
    simp only
    split <;> exact Attempt.ends_pure ⟨rfl, rfl, rfl⟩

theorem yields_clear (hs : s.IsFit) (h : s.Manages w .clear job) :
    (s.clear job).Yields w (fun p => p.outcome.Of .clear job) Fault.OfJob := by
  obtain ⟨hfile, -⟩ := h
  refine (s.looks_requireFile job).yields_bind (yields_requireFile w hs hfile) fun _ _ _ => ?_
  have hchange := Change.yields_ofClear w hs.sandbox hfile s.settings.guardTag
  refine (Change.yields_committed w hs.sandbox hchange .clear).bind fun done _ _ => ?_
  simp only
  split <;> exact Attempt.ends_pure ⟨rfl, rfl, rfl⟩

/-- An action comes to an outcome of the job, or to a fault of its file. -/
theorem yields_perform (hs : s.IsFit) (h : s.Manages w action job) :
    (s.perform action job).Yields w (fun p => p.outcome.Of action job) Fault.OfJob := by
  cases action with
  | generate => exact yields_generate w hs h
  | apply => exact yields_apply w hs h
  | clear => exact yields_clear w hs h

/-! ## Outcomes -/

/-- A report is written, or it is left out. -/
theorem yields_writeReport (hs : s.IsFit) (report : Conflict Float) :
    (s.writeReport report).Yields w (fun _ => True) fun _ => False := by
  unfold writeReport
  cases hdirectory : s.settings.conflictDir with
  | none => exact Attempt.ends_pure trivial
  | some directory =>
    have hplace := (hs.conflictDir directory hdirectory).child (Conflict.fitsPath_fileName report.targetPath)
    refine Attempt.yields_tried
      (Sandbox.yields_writeText w hs.sandbox hplace (Conflict.isWhole_fileText report))
      (fun _ _ _ => Attempt.ends_pure trivial) fun fault _ hrefused => ?_
    simp only [hrefused, if_true]
    exact Attempt.ends_pure trivial

/-- A fault of its file becomes the outcome of a job. -/
theorem yields_settle (hs : s.IsFit) {fault : Fault} (h : fault.OfJob) :
    (s.settle action job fault).Yields w (fun p => p.outcome.Of action job) fun _ => False := by
  unfold settle
  cases hconflict : fault.conflict? with
  | some report => exact (yields_writeReport w hs report).bind fun _ _ _ => Attempt.ends_pure ⟨rfl, rfl, rfl⟩
  | none =>
    have hconcerns : fault.concernsFile = true := h.resolve_left (by simp [hconflict])
    simp only [hconcerns, if_true]
    exact Attempt.ends_pure ⟨rfl, rfl, rfl⟩

/-- A job that can be managed has an outcome, whatever goes wrong with its file. -/
theorem exists_outcome (hs : s.IsFit) {w : World} (h : s.Manages w action job) :
    ∃ p w', (s.process action job).outcome w = (.ok p, w') ∧ p.outcome.Of action job := by
  have hprocess : (s.process action job).Yields w (fun p => p.outcome.Of action job) fun _ => False :=
    Attempt.yields_tried (yields_perform w hs h) (fun _ _ hof => Attempt.ends_pure hof)
      fun _ w₁ hfault => yields_settle w₁ hs hfault
  exact hprocess.exists_ok

/-! ## Runs -/

/-- Every job can be managed when its turn comes. -/
def ManagesAll (s : Session) (action : Action) : World → List Job → Prop
  | _, [] => True
  | w, job :: jobs => s.Manages w action job ∧
      ∀ p w', (s.process action job).outcome w = (.ok p, w') → ManagesAll s action w' jobs

/-- In place, clearing manages every job. -/
theorem managesAll_clear (hlive : s.sandbox.isDry = false) : ∀ (jobs : List Job) (w : World), s.ManagesAll .clear w jobs
  | [], _ => trivial
  | _ :: jobs, _ =>
    ⟨⟨fun hdry => absurd (hlive.symm.trans hdry) Bool.false_ne_true, trivial⟩,
      fun _ w' _ => managesAll_clear hlive jobs w'⟩

/-- The jobs of a plan come to their outcomes, one after the other. -/
theorem exists_outcomes (hs : s.IsFit) {jobs : List Job} {w : World} (h : s.ManagesAll action w jobs) :
    ∃ processed w', (jobs.mapM (s.process action)).outcome w = (.ok processed, w') ∧
      List.Forall₂ (fun job p => p.outcome.Of action job) jobs processed := by
  induction jobs generalizing w with
  | nil => exact ⟨[], w, rfl, .nil⟩
  | cons job jobs ih =>
    -- The rest is managed in the world that this job leaves behind, whichever that is.
    obtain ⟨p, w₁, hp, hof⟩ := exists_outcome hs h.1
    obtain ⟨processed, w', hprocessed, hall⟩ := ih (h.2 p w₁ hp)
    refine ⟨p :: processed, w', ?_, .cons hof hall⟩
    rw [List.mapM_cons]
    exact (Attempt.outcome_bind hp _).trans (Attempt.outcome_bind hprocessed _)

/-- A run ends where a job ends with a fault. -/
theorem outcome_run_error {w w' : World} {plan : Plan} {fault : Fault}
    (hplan : (s.plan action).outcome w = (.ok plan, w))
    (h : (plan.jobs.mapM (s.process action)).outcome w = (.error fault, w')) :
    (s.run action).outcome w = (.error fault, w') :=
  (Attempt.outcome_bind hplan _).trans (Attempt.outcome_bind_error h _)

/-- A job that can be managed is processed, whatever goes wrong with its file. So a run of jobs that can be managed when
their turn comes ends with one outcome for each of them and one for each target that rules skip. -/
theorem run_isolates {s : Session} {action : Action} {w : World} {plan : Plan} (hs : s.IsFit)
    (hplan : (s.plan action).outcome w = (.ok plan, w)) :
    (∀ job ∈ plan.jobs, ∀ w₁, s.Manages w₁ action job →
        ∃ p w₂, (s.process action job).outcome w₁ = (.ok p, w₂) ∧ p.outcome.Of action job) ∧
      (s.ManagesAll action w plan.jobs → ∃ processed w',
        (plan.jobs.mapM (s.process action)).outcome w = (.ok processed, w') ∧
          (s.run action).outcome w = (.ok (Summary.ofRun s action plan processed), w') ∧
            List.Forall₂ (fun job p => p.outcome.Of action job) plan.jobs processed ∧
              (Summary.ofRun s action plan processed).outcomes.Perm
                (plan.skipped.map (Outcome.ofSkipped action) ++ processed.map Processed.outcome)) := by
  refine ⟨fun job _ w₁ h => exists_outcome hs h, fun h => ?_⟩
  obtain ⟨processed, w', hprocessed, hall⟩ := exists_outcomes hs h
  refine ⟨processed, w', hprocessed, ?_, hall, List.mergeSort_perm _ _⟩
  exact (Attempt.outcome_bind hplan _).trans (Attempt.outcome_bind hprocessed _)

/-! ## A sample -/

/-- The sample with files in its target tree, none of which is stored. -/
def sourceWorld (files : List (Text × List Char)) : World :=
  { worldOf [] with
    tree := ⟨(worldOf []).tree.entries ++
      files.map fun f => ((["engine".toList, f.1] : Location), Entry.file (.text f.2))⟩ }

/-- The job of a file there. -/
def sourceJob (name : Text) : Job := ⟨name, name, ⟨.slash, ["engine".toList, name]⟩⟩

section
variable {files : List (Text × List Char)} {names : List Text} {name : Text}

/-- The plan for generating there has a job for each file. -/
theorem outcome_plan_sourceWorld
    (hroot : (sourceWorld files).tree.probe [] sampleSession.settings.targetRoot = .ok (some .directory))
    (hstore : (sourceWorld files).tree.probe [] sampleSession.store.root = .ok (some .directory))
    (hnone : (((sourceWorld files).tree.below [] sampleSession.store.root).filterMap fun d => Store.targetOf? d.1) = [])
    (hscanned : sampleSession.scannedFiles.value (sourceWorld files) = .ok names)
    (horder : (names.map fun name => (⟨name, some name⟩ : Prospect)).Pairwise fun p q => p.before q = true)
    (hjobs : ((names.map fun name => (⟨name, some name⟩ : Prospect)).foldlM
      (sampleSession.addProspect sampleFacts) {}).value (sourceWorld files) = .ok { jobs := names.map sourceJob }) :
    (sampleSession.plan .generate).outcome (sourceWorld files) =
      (.ok { jobs := names.map sourceJob }, sourceWorld files) := by
  have htargets : sampleSession.store.targets.value (sourceWorld files) = .ok [] := by
    rw [Attempt.value, Store.outcome_targets rfl hstore, if_pos rfl]
    refine congrArg Except.ok ?_
    rw [show (sourceWorld files).cwd = [] from rfl, hnone, List.mergeSort_nil, List.eraseDups_nil]
  have hps : (sampleSession.prospects sampleFacts .generate).value (sourceWorld files) =
      .ok (names.map fun name => ⟨name, some name⟩) := by
    refine (Attempt.Looks.value_bind (sampleSession.looks_storedDestinations _) _ _).trans ?_
    rw [storedDestinations, Attempt.Looks.value_bind sampleSession.store.looks_targets, htargets]
    refine (Attempt.Looks.value_bind sampleSession.looks_scannedFiles _ _).trans ?_
    rw [hscanned]
    rfl
  exact outcome_plan hroot rfl hps horder hjobs

theorem isFit_sampleSession : sampleSession.IsFit where
  patchRoot := Path.unfit?_eq_none.mp rfl
  sandbox := ⟨fun _ h => (by cases h), fun _ h => (by cases h)⟩
  conflictDir := fun _ h => (by cases h)
  tag := Text.isWhole_ofString "Mod"

/-- Such a job can be managed, if the name of the file is a key. -/
theorem manages_sourceJob (hself : keyOf name = .ok name) (hwhole : name.IsWhole) (hnul : char '\x00' ∉ name)
    (hnone : (sourceWorld files).artifacts (sampleSession.store.directory name) (Path.ofText name).name = []) :
    sampleSession.Manages (sourceWorld files) .generate (sourceJob name) := by
  refine ⟨fun hdry => absurd hdry Bool.false_ne_true, fun _ _ _ => ?_⟩
  refine ⟨name, hself, ⟨hself, hwhole, hwhole.fitsPath hnul⟩, ?_⟩
  intro places hplaces dir hdir file hfile
  obtain rfl := Except.ok.inj hplaces
  rw [List.mem_singleton.mp hdir, hnone] at hfile
  cases hfile

end

/-- A file with a guard that is not closed, and one with an addition. -/
def brokenFiles : List (Text × List Char) :=
  [("x.cpp", "// Mod: Begin\n".toList), ("y.cpp", "int b; // Mod\n".toList)]

def brokenPlan : Plan := { jobs := [sourceJob "x.cpp", sourceJob "y.cpp"] }

theorem outcome_plan_broken : (sampleSession.plan .generate).outcome (sourceWorld brokenFiles) =
    (.ok brokenPlan, sourceWorld brokenFiles) :=
  @outcome_plan_sourceWorld brokenFiles ["x.cpp", "y.cpp"] (by rfl) (by rfl) (by rfl) (by rfl) (by decide)
    (by with_unfolding_all rfl)

/-- The first file fails, and the second one has its outcome all the same. -/
theorem run_isolates_sample : ∃ processed w',
    (sampleSession.run .generate).outcome (sourceWorld brokenFiles) =
        (.ok (Summary.ofRun sampleSession .generate brokenPlan processed), w') ∧
      List.Forall₂ (fun job p => p.outcome.Of .generate job) brokenPlan.jobs processed ∧
        processed.head?.map (fun p => p.outcome.status) = some .failed := by
  obtain ⟨broken, hbroken, hstatus⟩ : ∃ p, (sampleSession.process .generate (sourceJob "x.cpp")).outcome
      (sourceWorld brokenFiles) = (.ok p, sourceWorld brokenFiles) ∧ p.outcome.status = .failed := ⟨_, rfl, rfl⟩
  have hmanages : sampleSession.ManagesAll .generate (sourceWorld brokenFiles) brokenPlan.jobs := by
    refine ⟨manages_sourceJob (by rfl) (Text.isWhole_ofString _) (by decide) (by rfl), fun p w' hp => ?_⟩
    obtain ⟨-, rfl⟩ := Prod.mk.inj (hbroken.symm.trans hp)
    exact ⟨manages_sourceJob (by rfl) (Text.isWhole_ofString _) (by decide) (by rfl), fun _ _ _ => trivial⟩
  obtain ⟨processed, w', hprocessed, hrun, hall, -⟩ := (run_isolates isFit_sampleSession outcome_plan_broken).2 hmanages
  refine ⟨processed, w', hrun, hall, ?_⟩
  rw [brokenPlan, List.mapM_cons, Attempt.outcome_bind hbroken] at hprocessed
  rcases Attempt.bind_cases hprocessed with ⟨fault, -, h⟩ | ⟨rest, w₁, -, h⟩
  · cases h
  · obtain rfl := Except.ok.inj (Prod.mk.inj h).1
    exact congrArg some hstatus

/-- A guarded file whose name starts with a backslash, and a file without guards. -/
def hostileFiles : List (Text × List Char) :=
  [("\\x.cpp", "int a; // Mod\n".toList), ("y.cpp", "int b;\n".toList)]

def hostilePlan : Plan := { jobs := [sourceJob "\\x.cpp", sourceJob "y.cpp"] }

/-- The plan has a job for a file whose path is no key, and the fault of that job ends the run, so that the other file is
left without the outcome that it would have had. -/
theorem run_stopped :
    (sampleSession.plan .generate).outcome (sourceWorld hostileFiles) = (.ok hostilePlan, sourceWorld hostileFiles) ∧
      (sampleSession.process .generate (sourceJob "\\x.cpp")).outcome (sourceWorld hostileFiles) =
        (.error (.key (.notBelowRoot "\\x.cpp")), sourceWorld hostileFiles) ∧
      (∃ p w', (sampleSession.process .generate (sourceJob "y.cpp")).outcome (sourceWorld hostileFiles) = (.ok p, w')) ∧
      (sampleSession.run .generate).outcome (sourceWorld hostileFiles) =
        (.error (.key (.notBelowRoot "\\x.cpp")), sourceWorld hostileFiles) := by
  have hplan : (sampleSession.plan .generate).outcome (sourceWorld hostileFiles) =
      (.ok hostilePlan, sourceWorld hostileFiles) :=
    @outcome_plan_sourceWorld hostileFiles ["\\x.cpp", "y.cpp"] (by rfl) (by rfl) (by rfl) (by rfl) (by decide)
      (by with_unfolding_all rfl)
  -- Its path is read as `/x.cpp`, which the store takes for a path from the root.
  have hprocess : (sampleSession.process .generate (sourceJob "\\x.cpp")).outcome (sourceWorld hostileFiles) =
      (.error (.key (.notBelowRoot "\\x.cpp")), sourceWorld hostileFiles) := by rfl
  have hother : sampleSession.Manages (sourceWorld hostileFiles) .generate (sourceJob "y.cpp") :=
    manages_sourceJob (by rfl) (Text.isWhole_ofString _) (by decide) (by rfl)
  refine ⟨hplan, hprocess, ?_, outcome_run_error hplan ?_⟩
  · exact (exists_outcome isFit_sampleSession hother).imp fun _ h => h.imp fun _ h => h.1
  · rw [hostilePlan, List.mapM_cons]
    exact Attempt.outcome_bind_error hprocess _

end Session

end Regraft

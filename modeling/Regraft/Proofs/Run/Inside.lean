import Regraft.Proofs.Files.Closed
import Regraft.Proofs.Policy.Destination
import Regraft.Proofs.Run.Plan
/-!
# Jobs inside the target tree

The file of a job is written from the root of the target tree on, with a relative path. It stays in the tree
(`StaysIn`) unless that path leads up. A scanned file never does. A stored target does if its own name leads up once it is
in the form of scopes, if a target of a remapping leads up, or if blanks come out at its ends while it is brought into that
form, so that it is cut in the wrong place (`Session.Confined` says that none of this is the case).

* `Session.plan_inside`: the jobs of a plan are in the target tree, those of stored targets if they are confined.
-/
namespace Regraft

/-- A path stays in a directory: as it is written, with every step up taken, and where it leads. -/
structure StaysIn (w : World) (root p : Path) : Prop where
  written : ∀ cwd base there, root.absolute cwd = .ok base → p.absolute cwd = .ok there → base.names <+: there.names
  located : ∀ base here, w.tree.locate w.cwd root = .ok base → w.tree.locate w.cwd p = .ok here → base <+: here

/-- Names without steps up stay in the directory that they start from. -/
theorem staysIn_join {names : List Text} (hplain : parentName ∉ names) (w : World) (root : Path) :
    StaysIn w root (root.join (Path.ofNames names)) := by
  rw [Path.join_ofNames]
  refine ⟨fun cwd base there hbase hthere => ?_, fun base here hbase hhere => ?_⟩
  · rw [Path.absolute_eq_ok hbase, Path.absolute_eq_ok hthere]
    refine ⟨names, ?_⟩
    rw [show (Tree.behind root names).isAbsolute = root.isAbsolute from rfl, ← Path.takeStepsUp_append hplain]
    split
    · rfl
    · rw [List.append_assoc]
      rfl
  · obtain ⟨-, -, hfollow⟩ := Tree.locate_eq_ok.mp hhere
    obtain ⟨-, -, hfront⟩ := Tree.locate_eq_ok.mp hbase
    obtain ⟨mid, hmid, hnames⟩ := Tree.follow_append hfollow
    obtain rfl := Except.ok.inj ((Tree.follow_eq_ok _ hmid).symm.trans hfront)
    exact ⟨names, (Tree.eq_append_of_follow hplain hnames).symm⟩

namespace Session

variable {s : Session} {facts : Facts} {w w' : World} {d : Draft} {defines : Table Text}

/-- A target that leads up neither by itself nor by what the rules put in front of it. In the form of scopes, it is in this
form for good: no blanks come out at its ends when slashes are taken off. -/
structure Confined (s : Session) (facts : Facts) (target : Text) : Prop where
  form : scopePath (scopePath target) = scopePath target
  plain : parentName ∉ Path.namesOf (scopePath target)
  remapped : ∀ resolution, s.rules.evaluate target facts = .ok resolution → resolution.remap = true →
    ∀ old new, s.rules.remapping (scopePath target) = .ok (old, new) → parentName ∉ Path.namesOf new

theorem destination_of_jobOf? {p : Prospect} {job : Job} (h : s.jobOf? facts p = some job) :
    job.file = s.settings.targetRoot.join (Path.ofText job.destination) ∧
      ∃ resolution, s.rules.evaluate job.targetPath facts = .ok resolution ∧ resolution.skip = false ∧
        job.destination = p.found.getD resolution.destination := by
  obtain ⟨resolution, hevaluate, hskip, rfl⟩ := exists_resolution_of_jobOf? h
  exact ⟨rfl, resolution, hevaluate, hskip, rfl⟩

/-- A destination that leads over names without steps up stays in the target tree. -/
theorem staysIn_of_leadsOver {job : Job} (hfile : job.file = s.settings.targetRoot.join (Path.ofText job.destination))
    (h : LeadsOver (· ≠ parentName) job.destination) : StaysIn w s.settings.targetRoot job.file := by
  have hpath : Path.ofText job.destination = Path.ofNames (Path.namesOf job.destination) := by
    rw [Path.ofText, Path.rootOf_of_head? h.relative, Path.ofNames]
  rw [hfile, hpath]
  exact staysIn_join (fun hmem => h.names _ hmem rfl) w _

/-- A stored target goes to a relative destination, and stays in the target tree if it is confined. -/
theorem leadsOver_of_evaluate (hrules : RuleSet.ofDraft d defines = .ok s.rules) {target : Text} {resolution : Resolution}
    (heval : s.rules.evaluate target facts = .ok resolution) (hskip : resolution.skip = false) :
    LeadsOver (fun _ => True) resolution.destination ∧
      (s.Confined facts target → LeadsOver (· ≠ parentName) resolution.destination) := by
  have hdestination := (RuleSet.evaluate_eq_ok heval).resolve_left (by simp [hskip])
  have hrelative : ∀ t : Text, (scopePath t).head? ≠ some (char '/') := fun t => (isScopePath_scopePath t).relative
  have hnew : ∀ old new, s.rules.remapping (scopePath target) = .ok (old, new) → new.head? ≠ some (char '/') := by
    intro old new hremap
    obtain ⟨-, -, -, t, rfl⟩ := RuleSet.remapping_eq_ok hremap
    exact hrelative t
  refine ⟨?_, fun h => ?_⟩
  · exact RuleSet.leadsOver_destination hrules ⟨hrelative target, fun _ _ => trivial⟩ (.inr fun _ => trivial)
      (fun _ old new hremap => ⟨hnew old new hremap, fun _ _ => trivial⟩) hdestination
  · have hplain : LeadsOver (· ≠ parentName) (scopePath target) :=
      ⟨hrelative target, fun name hname => ne_of_mem_of_not_mem hname h.plain⟩
    refine RuleSet.leadsOver_destination hrules hplain (.inl h.form) (fun hremap old new hnames => ?_) hdestination
    exact ⟨hnew old new hnames, fun name hname =>
      ne_of_mem_of_not_mem hname (h.remapped resolution heval hremap old new hnames)⟩

/-- A scanned file is where its names lead in the target tree. -/
theorem leadsOver_of_mem_scannedFiles
    (hnames : ∀ e ∈ w.tree.entries, ∀ name ∈ e.1, IsName name ∧ name ≠ parentName) {files : List Text}
    (h : s.scannedFiles.value w = .ok files) {f : Text} (hf : f ∈ files) : LeadsOver (· ≠ parentName) f := by
  rcases scannedFiles_eq h with rfl | ⟨base, -, rfl⟩
  · cases hf
  · obtain ⟨e, he, hscanned⟩ := List.mem_filterMap.mp hf
    obtain ⟨names, hne, hlocation, rfl⟩ := scanned?_eq_some hscanned
    have hall : ∀ name ∈ names, IsName name ∧ name ≠ parentName := fun name hname =>
      hnames e he name (hlocation ▸ List.mem_append_right base hname)
    refine ⟨(IsScopePath.names names hne fun name hname => (hall name hname).1).relative, fun name hname => ?_⟩
    rw [Path.namesOf_joinWith fun name hname => (hall name hname).1] at hname
    exact (hall name hname).2

/-- Generating is about files that are scanned, the other actions are not. -/
theorem found_of_mem_prospects {action : Action} {ps : List Prospect} (h : (s.prospects facts action).value w = .ok ps)
    {p : Prospect} (hp : p ∈ ps) : action ≠ .generate ∧ p.found = none ∨
      action = .generate ∧ ∃ files, s.scannedFiles.value w = .ok files ∧ ∃ f ∈ files, p.found = some f := by
  have hstored : (do return (← s.store.targets).map fun target => (⟨target, none⟩ : Prospect) : Attempt _).value w =
      .ok ps → p.found = none := by
    intro h
    obtain ⟨targets, -, h⟩ := s.store.looks_targets.bind_eq_ok h
    rw [← Except.ok.inj h] at hp
    obtain ⟨target, -, rfl⟩ := List.mem_map.mp hp
    rfl
  cases action with
  | generate =>
    obtain ⟨places, -, h⟩ := (s.looks_storedDestinations facts).bind_eq_ok h
    obtain ⟨files, hfiles, h⟩ := s.looks_scannedFiles.bind_eq_ok h
    rw [← Except.ok.inj h] at hp
    obtain ⟨f, hf, rfl⟩ := List.mem_map.mp hp
    exact .inr ⟨rfl, files, hfiles, f, hf, rfl⟩
  | apply => exact .inl ⟨by decide, hstored h⟩
  | clear => exact .inl ⟨by decide, hstored h⟩

/-- The jobs of a plan have relative destinations, whatever the rules and the store are. The file of a job for generating
is in the target tree, and so is that of any other job whose target is confined. -/
theorem plan_inside {action : Action} {plan : Plan} (hrules : RuleSet.ofDraft d defines = .ok s.rules)
    (hnames : ∀ e ∈ w.tree.entries, ∀ name ∈ e.1, IsName name ∧ name ≠ parentName)
    (hplan : (s.plan action).outcome w = (.ok plan, w')) :
    ∃ facts, (surveyFacts s.rules s.settings.targetRoot s.settings.defines).outcome w = (.ok facts, w) ∧
      ∀ job ∈ plan.jobs, (Path.ofText job.destination).isAbsolute = false ∧
        job.file = s.settings.targetRoot.join (Path.ofText job.destination) ∧
        (action = .generate ∨ s.Confined facts job.targetPath → StaysIn w s.settings.targetRoot job.file) := by
  obtain ⟨facts, ps, hfacts, hps, hjobs⟩ := jobs_perm (congrArg Prod.fst hplan)
  have hsurvey := (looks_surveyFacts s.rules s.settings.targetRoot s.settings.defines).outcome_eq w
  rw [hfacts] at hsurvey
  refine ⟨facts, hsurvey, fun job hjob => ?_⟩
  obtain ⟨p, hp, hjob⟩ := List.mem_filterMap.mp (hjobs.mem_iff.mp hjob)
  obtain ⟨hfile, resolution, heval, hskip, hdestination⟩ := destination_of_jobOf? hjob
  rcases found_of_mem_prospects hps hp with ⟨haction, hnone⟩ | ⟨rfl, files, hfiles, f, hf, hfound⟩
  · rw [hnone, Option.getD_none] at hdestination
    obtain ⟨hrelative, hconfined⟩ := leadsOver_of_evaluate hrules heval hskip
    rw [← hdestination] at hrelative hconfined
    exact ⟨hrelative.isAbsolute, hfile, fun h => staysIn_of_leadsOver hfile (hconfined (h.resolve_left haction))⟩
  · rw [hfound, Option.getD_some] at hdestination
    have hplain := leadsOver_of_mem_scannedFiles hnames hfiles (hdestination ▸ hf)
    exact ⟨hplain.isAbsolute, hfile, fun _ => staysIn_of_leadsOver hfile hplain⟩

/-! ## A sample -/

/-- A session whose rules move the directories below `A`. -/
def movingSession (target : Text) : Session :=
  { sampleSession with
    rules := ⟨[], [⟨[], none, []⟩,
      ⟨"A", some 0, [⟨.remapIf, "A", [⟨.always, [], false⟩], [], false, false, "Crysknife.ini", 2⟩,
        ⟨.remapTarget, "A", [], target, false, false, "Crysknife.ini", 3⟩]⟩]⟩ }

/-- The draft of its rules. -/
def movingDraft (target : Text) : Draft where
  scopes := [("A", [⟨.remapIf, "A", [⟨.always, [], false⟩], [], false, false, "Crysknife.ini", 2⟩,
    ⟨.remapTarget, "A", [], target, false, false, "Crysknife.ini", 3⟩])]

theorem ofDraft_moving (target : Text) : RuleSet.ofDraft (movingDraft target) [] = .ok (movingSession target).rules := by
  have hresolve : RuleSet.resolveScopes [] (movingDraft target).scopes = .ok (movingDraft target).scopes := by
    with_unfolding_all rfl
  exact RuleSet.ofDraft_eq_ok rfl rfl hresolve (.swap _ _ _) (List.pairwise_pair.mpr (by with_unfolding_all rfl))
    (by with_unfolding_all rfl)

/-- A stored target below `A`. -/
def movedWorld : World := worldOf [["engine", "A", "x", "lib.cpp"], ["plugin", "patches", "A", "lib.cpp.0001.patch.json"]]

theorem value_targets_movedWorld : sampleSession.store.targets.value movedWorld = .ok ["A/lib.cpp"] :=
  value_targets_sample (by rfl) (by decide) (by decide) (by decide)

/-- The plan for clearing there. -/
def movedPlan (destination : Text) (file : Path) : Plan := { jobs := [⟨"A/lib.cpp", destination, file⟩] }

theorem prospects_stored {targets : List Text} {w : World} (h : sampleSession.store.targets.value w = .ok targets)
    (rules : RuleSet) : ({ sampleSession with rules }.prospects sampleFacts .clear).value w =
      .ok (targets.map fun target => ⟨target, none⟩) := by
  refine (Attempt.Looks.value_bind sampleSession.store.looks_targets _ _).trans ?_
  rw [h]
  rfl

theorem outcome_plan_moved : ((movingSession "A/x").plan .clear).outcome movedWorld =
    (.ok (movedPlan "A/x/lib.cpp" ⟨.slash, ["engine", "A", "x", "lib.cpp"]⟩), movedWorld) :=
  outcome_plan (by rfl) (by rfl) (prospects_stored value_targets_movedWorld _) (by decide) (by with_unfolding_all rfl)

theorem remapping_moving : (movingSession "A/x").rules.remapping (scopePath "A/lib.cpp") = .ok ("A", "A/x") := by
  with_unfolding_all decide

theorem plan_inside_moved : RuleSet.ofDraft (movingDraft "A/x") [] = .ok (movingSession "A/x").rules ∧
    ((movingSession "A/x").plan .clear).outcome movedWorld =
      (.ok (movedPlan "A/x/lib.cpp" ⟨.slash, ["engine", "A", "x", "lib.cpp"]⟩), movedWorld) ∧
    StaysIn movedWorld sampleSettings.targetRoot ⟨.slash, ["engine", "A", "x", "lib.cpp"]⟩ := by
  have hgood : ∀ e ∈ movedWorld.tree.entries, ∀ name ∈ e.1,
      (name ≠ [] ∧ name ≠ [char '.'] ∧ char '/' ∉ name) ∧ name ≠ parentName := by decide
  have hnames : ∀ e ∈ movedWorld.tree.entries, ∀ name ∈ e.1, IsName name ∧ name ≠ parentName := fun e he name hname =>
    (hgood e he name hname).imp_left fun ⟨hne, hhere, hslash⟩ => ⟨hne, hhere, hslash⟩
  obtain ⟨facts, -, hjobs⟩ := plan_inside (ofDraft_moving "A/x") hnames outcome_plan_moved
  refine ⟨ofDraft_moving _, outcome_plan_moved, (hjobs _ (List.mem_singleton_self _)).2.2 (.inr ?_)⟩
  refine ⟨by decide, by decide, fun _ _ _ old new hremap => ?_⟩
  obtain ⟨-, rfl⟩ := Prod.mk.inj (Except.ok.inj (remapping_moving.symm.trans hremap))
  decide

/-- A stored target whose name is written with a backslash. -/
def climbingWorld : World := worldOf [["lib.cpp"], ["plugin", "patches", "..\\lib.cpp.0001.patch.json"]]

theorem value_targets_climbingWorld : sampleSession.store.targets.value climbingWorld = .ok ["..\\lib.cpp"] :=
  value_targets_sample (by rfl) (by decide) (by decide) (by decide)

/-- A target of a remapping and the name of a stored target lead out of the target tree. -/
theorem plan_outside :
    (((movingSession "../plugin").plan .clear).outcome movedWorld =
        (.ok (movedPlan "../plugin/lib.cpp" ⟨.slash, ["engine", "..", "plugin", "lib.cpp"]⟩), movedWorld) ∧
      ¬StaysIn movedWorld sampleSettings.targetRoot ⟨.slash, ["engine", "..", "plugin", "lib.cpp"]⟩) ∧
    (sampleSession.plan .clear).outcome climbingWorld =
        (.ok { jobs := [⟨"..\\lib.cpp", "../lib.cpp", ⟨.slash, ["engine", "..", "lib.cpp"]⟩⟩] }, climbingWorld) ∧
      ¬StaysIn climbingWorld sampleSettings.targetRoot ⟨.slash, ["engine", "..", "lib.cpp"]⟩ := by
  have hmoved : movedWorld.tree.locate [] sampleSettings.targetRoot = .ok ["engine"] ∧
      movedWorld.tree.locate [] ⟨.slash, ["engine", "..", "plugin", "lib.cpp"]⟩ = .ok ["plugin", "lib.cpp"] := by
    decide
  have hclimbing : climbingWorld.tree.locate [] sampleSettings.targetRoot = .ok ["engine"] ∧
      climbingWorld.tree.locate [] ⟨.slash, ["engine", "..", "lib.cpp"]⟩ = .ok ["lib.cpp"] := by
    decide
  refine ⟨⟨?_, fun h => ?_⟩, ?_, fun h => ?_⟩
  · exact outcome_plan (by rfl) (by rfl) (prospects_stored value_targets_movedWorld _) (by decide)
      (by with_unfolding_all rfl)
  · exact absurd (h.located _ _ hmoved.1 hmoved.2) (by decide)
  · exact outcome_plan (by rfl) (value_surveyFacts_sample _) (prospects_stored value_targets_climbingWorld _) (by decide)
      (by with_unfolding_all rfl)
  · exact absurd (h.located _ _ hclimbing.1 hclimbing.2) (by decide)

end Session

end Regraft

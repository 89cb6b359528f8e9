import Regraft.Proofs.Files.Growth
import Regraft.Proofs.Files.Looking
import Regraft.Proofs.Store.Holdings
import Regraft.Proofs.Text.Order
import Regraft.Run.Plan
/-!
# The jobs of a plan

The jobs of a plan may be done at the same time, so no two of them should be about one stored target or about one file.
Generating never has two jobs for one file, and applying and clearing never have two for one target. The other halves
depend on the rules: they have to send different stored targets to different files, and to leave no scanned file behind
where they send a target away (`Session.Untangled`).

* `Session.looks_plan`: planning changes nothing;
* `Session.jobs_perm`: every job comes from a prospect of its own;
* `Session.plan_distinct`: what two jobs of a plan never share.
-/
namespace Regraft

open Attempt (Looks)

/-! ## Planning changes nothing -/

theorem Store.looks_targetsBelow (base : Path) : (Store.targetsBelow base).Looks := by
  refine (Attempt.looks_isDirectory base).bind fun found => ?_
  cases found with
  | true => exact (Attempt.looks_below base).bind fun _ => Attempt.looks_pure _
  | false => exact Attempt.looks_pure _

theorem Store.looks_targets (s : Store) : s.targets.Looks :=
  (Attempt.looks_ofExcept _ _).bind fun _ =>
    (Looks.mapM Store.looks_targetsBelow _).bind fun _ => Attempt.looks_pure _

/-- No target is listed twice. -/
theorem Store.nodup_targets {s : Store} {w : World} {targets : List Text} (h : s.targets.value w = .ok targets) :
    targets.Nodup := by
  obtain ⟨places, -, h⟩ := (Attempt.looks_ofExcept _ _).bind_eq_ok h
  obtain ⟨found, -, h⟩ := (Looks.mapM Store.looks_targetsBelow _).bind_eq_ok h
  rw [← Except.ok.inj h]
  exact (ascending_eraseDups (List.pairwise_mergeSort (fun a b c => @noLater_trans a b c) noLater_total _)).2

/-- The locations of a tree are different and made of names. -/
structure Tree.IsRegular (t : Tree) : Prop where
  apart : (t.entries.map Prod.fst).Nodup
  names : ∀ d ∈ t.entries, ∀ name ∈ d.1, IsName name

namespace Session

variable {s : Session} {facts : Facts} {w w' : World}

theorem lookUp_unchanged (root : Path) (operand : Text) (w : World) : ((lookUp root operand).run w).2 = w := by
  rw [lookUp, Script.run_bind]
  cases ((Script.request (.probe (root.join (Path.ofText (trimWhile (· == '/') operand))))).run w).1 with
  | ok kind => rfl
  | error fault => rfl

theorem looks_surveyFacts (rules : RuleSet) (root : Path) (defines : Table Text) :
    (surveyFacts rules root defines).Looks := by
  refine Looks.bind (Looks.mapM (fun operand => ?_) _) fun _ => Attempt.looks_pure _
  refine Looks.bind (fun w => ?_) fun _ => Attempt.looks_pure _
  rw [Attempt.outcome_lift]
  exact lookUp_unchanged root operand w

theorem looks_resolve (s : Session) (facts : Facts) (path : Text) : (s.resolve facts path).Looks :=
  Attempt.looks_ofExcept _ _

theorem looks_storedDestinations (s : Session) (facts : Facts) : (s.storedDestinations facts).Looks :=
  s.store.looks_targets.bind fun _ => Looks.foldlM (fun _ _ => (s.looks_resolve facts _).bind fun _ =>
    Attempt.looks_pure _) _ _

theorem looks_scannedFiles (s : Session) : s.scannedFiles.Looks :=
  (Attempt.looks_below _).bind fun _ => Attempt.looks_pure _

theorem looks_prospects (s : Session) (facts : Facts) (action : Action) : (s.prospects facts action).Looks := by
  have hstored : Looks (do return (← s.store.targets).map fun target => (⟨target, none⟩ : Prospect)) :=
    s.store.looks_targets.bind fun _ => Attempt.looks_pure _
  cases action with
  | generate => exact (s.looks_storedDestinations facts).bind fun _ => s.looks_scannedFiles.bind fun _ =>
      Attempt.looks_pure _
  | apply => exact hstored
  | clear => exact hstored

theorem looks_addProspect (s : Session) (facts : Facts) (plan : Plan) (p : Prospect) :
    (s.addProspect facts plan p).Looks := by
  unfold addProspect
  split
  · exact Attempt.looks_pure _
  · refine (s.looks_resolve facts _).bind fun resolution => ?_
    split <;> exact Attempt.looks_pure _

/-- Planning changes nothing. -/
theorem looks_plan (s : Session) (action : Action) : (s.plan action).Looks := by
  refine (Attempt.looks_isDirectory _).bind fun there => ?_
  cases there with
  | false => exact Attempt.looks_throw _
  | true =>
    refine (looks_surveyFacts _ _ _).bind fun facts => (s.looks_prospects facts action).bind fun ps => ?_
    exact Looks.foldlM (s.looks_addProspect facts) _ _

/-! ## Where jobs come from -/

/-- The job for a prospect, unless the filters or the rules leave it out. -/
def jobOf? (s : Session) (facts : Facts) (p : Prospect) : Option Job :=
  match s.rules.evaluate p.targetPath facts with
  | .ok resolution =>
    let destination := p.found.getD resolution.destination
    if s.settings.selects p.targetPath && !resolution.skip then
      some ⟨p.targetPath, destination, s.settings.targetRoot.join (Path.ofText destination)⟩
    else none
  | .error _ => none

theorem jobs_addProspect {plan plan' : Plan} {p : Prospect} (h : (s.addProspect facts plan p).value w = .ok plan') :
    plan'.jobs = plan.jobs ++ (s.jobOf? facts p).toList := by
  unfold addProspect at h
  cases hselects : s.settings.selects p.targetPath with
  | false =>
    simp only [hselects, Bool.not_false, if_true] at h
    rw [← Except.ok.inj h, jobOf?]
    split <;> simp [hselects]
  | true =>
    simp only [hselects, Bool.not_true, Bool.false_eq_true, if_false] at h
    obtain ⟨resolution, hresolution, h⟩ := (s.looks_resolve facts _).bind_eq_ok h
    have hevaluate := Attempt.value_ofExcept_eq_ok hresolution
    cases hskip : resolution.skip with
    | true =>
      simp only [hskip, if_true] at h
      rw [← Except.ok.inj h]
      simp [jobOf?, hevaluate, hskip]
    | false =>
      simp only [hskip, Bool.false_eq_true, if_false] at h
      rw [← Except.ok.inj h]
      simp [jobOf?, hevaluate, hselects, hskip]

theorem jobs_foldlM {ps : List Prospect} {plan plan' : Plan}
    (h : (ps.foldlM (s.addProspect facts) plan).value w = .ok plan') :
    plan'.jobs = plan.jobs ++ ps.filterMap (s.jobOf? facts) := by
  induction ps generalizing plan with
  | nil => rw [← Except.ok.inj h, List.filterMap_nil, List.append_nil]
  | cons p ps ih =>
    rw [List.foldlM_cons] at h
    obtain ⟨next, hnext, h⟩ := (s.looks_addProspect facts plan p).bind_eq_ok h
    rw [ih h, jobs_addProspect hnext, List.append_assoc]
    cases hjob : s.jobOf? facts p with
    | none => simp [hjob]
    | some job => simp [hjob]

/-- The jobs of a plan are those of the prospects, in some sequence. -/
theorem jobs_perm {action : Action} {plan : Plan} (h : (s.plan action).value w = .ok plan) :
    ∃ facts ps, (surveyFacts s.rules s.settings.targetRoot s.settings.defines).value w = .ok facts ∧
      (s.prospects facts action).value w = .ok ps ∧ plan.jobs.Perm (ps.filterMap (s.jobOf? facts)) := by
  obtain ⟨there, -, h⟩ := (Attempt.looks_isDirectory _).bind_eq_ok h
  cases there with
  | false => cases h
  | true =>
    obtain ⟨facts, hfacts, h⟩ := (looks_surveyFacts _ _ _).bind_eq_ok h
    obtain ⟨ps, hps, h⟩ := (s.looks_prospects facts action).bind_eq_ok h
    refine ⟨facts, ps, hfacts, hps, ?_⟩
    rw [jobs_foldlM h, List.nil_append]
    exact (List.mergeSort_perm ps _).filterMap _

/-! ## The prospects -/

/-- The rules send a path to a destination. -/
def SendsTo (s : Session) (facts : Facts) (path destination : Text) : Prop :=
  ∃ resolution, s.rules.evaluate path facts = .ok resolution ∧ resolution.destination = destination

theorem SendsTo.unique {path d e : Text} (h : s.SendsTo facts path d) (h' : s.SendsTo facts path e) : d = e := by
  obtain ⟨r, hr, rfl⟩ := h
  obtain ⟨r', hr', rfl⟩ := h'
  rw [Except.ok.inj (hr.symm.trans hr')]

/-- The file of a written path in the target tree. -/
def fileAt (s : Session) (path : Text) : Path := s.settings.targetRoot.join (Path.ofText path)

/-- The rules send different stored targets to different files, and where they send one away, it leaves no scanned file
behind, unless another target comes there. -/
structure Untangled (s : Session) (facts : Facts) (targets files : List Text) : Prop where
  apart : ∀ t ∈ targets, ∀ u ∈ targets, ∀ d e, s.SendsTo facts t d → s.SendsTo facts u e →
    s.fileAt d = s.fileAt e → t = u
  vacated : ∀ t ∈ targets, t ∈ files → ∃ u ∈ targets, s.SendsTo facts u t

/-- Places with their targets, as far as the targets have been gone through. -/
structure Maps (s : Session) (facts : Facts) (targets : List Text) (places : Table Text) : Prop where
  sent : ∀ d t, Table.get? d places = some t → t ∈ targets ∧ s.SendsTo facts t d
  taken : ∀ t ∈ targets, ∀ d, s.SendsTo facts t d → Table.get? d places ≠ none

theorem Maps.goOn {done : List Text} {places : Table Text} (h : s.Maps facts done places) {target d : Text}
    (hsent : s.SendsTo facts target d) :
    s.Maps facts (done ++ [target]) (if Table.has d places then places else Table.put d target places) := by
  have hold : ∀ e t, Table.get? e places = some t → t ∈ done ++ [target] ∧ s.SendsTo facts t e := fun e t hget =>
    ⟨List.mem_append_left _ (h.sent e t hget).1, (h.sent e t hget).2⟩
  split
  · rename_i hhas
    refine ⟨hold, fun t ht e hte => ?_⟩
    rcases List.mem_append.mp ht with ht | ht
    · exact h.taken t ht e hte
    · obtain rfl := List.mem_singleton.mp ht
      rw [hte.unique hsent]
      exact Option.ne_none_iff_isSome.mpr hhas
  · refine ⟨fun e t hget => ?_, fun t ht e hte => ?_⟩
    · by_cases he : e = d
      · subst he
        rw [Table.get?_put_self] at hget
        obtain rfl := Option.some.inj hget
        exact ⟨by simp, hsent⟩
      · rw [Table.get?_put_of_ne he] at hget
        exact hold e t hget
    · by_cases he : e = d
      · simp [he]
      · rw [Table.get?_put_of_ne he]
        rcases List.mem_append.mp ht with ht | ht
        · exact h.taken t ht e hte
        · obtain rfl := List.mem_singleton.mp ht
          exact absurd (hte.unique hsent) he

theorem Maps.foldlM {rest : List Text} : ∀ {done : List Text} {places places' : Table Text}, s.Maps facts done places →
    Attempt.value (rest.foldlM (fun places target => do
      let destination := (← s.resolve facts target).destination
      return if Table.has destination places then places else Table.put destination target places) places) w =
        .ok places' → s.Maps facts (done ++ rest) places' := by
  induction rest with
  | nil =>
    intro done places places' h hfold
    rwa [List.append_nil, ← Except.ok.inj hfold]
  | cons target rest ih =>
    intro done places places' h hfold
    rw [List.foldlM_cons] at hfold
    obtain ⟨next, hnext, hfold⟩ := Looks.bind_eq_ok ((s.looks_resolve facts target).bind fun _ =>
      Attempt.looks_pure _) hfold
    obtain ⟨resolution, hresolution, hnext⟩ := (s.looks_resolve facts target).bind_eq_ok hnext
    have hstep := h.goOn ⟨resolution, Attempt.value_ofExcept_eq_ok hresolution, rfl⟩
    rw [Except.ok.inj hnext] at hstep
    simpa using ih hstep hfold

/-- The places of stored targets are those that the rules send them to. -/
theorem maps_storedDestinations {places : Table Text} (h : (s.storedDestinations facts).value w = .ok places) :
    ∃ targets, s.store.targets.value w = .ok targets ∧ s.Maps facts targets places := by
  obtain ⟨targets, htargets, h⟩ := s.store.looks_targets.bind_eq_ok h
  have hnone : s.Maps facts [] [] := ⟨by simp [Table.get?], by simp⟩
  exact ⟨targets, htargets, hnone.foldlM h⟩

/-- The path of an entry from the root of the target tree, if it is a file that is scanned. -/
def scanned? (s : Session) (base : Location) (d : Location × Entry) : Option Text :=
  (Tree.namesBelow? base d.1).bind fun names =>
    if d.2.kind = .file && s.settings.scans (Path.ofNames names) then some (joinWith ['/'] names) else none

theorem scannedFiles_eq {files : List Text} (h : s.scannedFiles.value w = .ok files) :
    files = [] ∨ ∃ base, w.tree.locate w.cwd s.settings.targetRoot = .ok base ∧
      files = w.tree.entries.filterMap (s.scanned? base) := by
  obtain ⟨found, hfound, h⟩ := (Attempt.looks_below s.settings.targetRoot).bind_eq_ok h
  have hbelow : found = w.tree.below w.cwd s.settings.targetRoot := (Except.ok.inj hfound).symm
  rw [← Except.ok.inj h, hbelow, Tree.below]
  cases hroot : w.tree.locate w.cwd s.settings.targetRoot with
  | error fault => exact .inl rfl
  | ok base =>
    refine .inr ⟨base, rfl, ?_⟩
    rw [List.filterMap_filterMap]
    refine List.filterMap_congr fun d _ => ?_
    simp only [scanned?]
    cases Tree.namesBelow? base d.1 <;> rfl

theorem scanned?_eq_some {base : Location} {d : Location × Entry} {f : Text} (h : s.scanned? base d = some f) :
    ∃ names, names ≠ [] ∧ d.1 = base ++ names ∧ f = joinWith ['/'] names := by
  obtain ⟨names, hnames, hf⟩ := Option.bind_eq_some_iff.mp h
  obtain ⟨hlocation, hne⟩ := Tree.namesBelow?_eq_some_iff.mp hnames
  exact ⟨names, hne, hlocation, (Option.some.inj (Option.ite_none_right_eq_some.mp hf).2).symm⟩

/-- The scanned files are different. -/
theorem pairwise_scannedFiles (hregular : w.tree.IsRegular) {files : List Text} (h : s.scannedFiles.value w = .ok files) :
    files.Pairwise fun f g => s.fileAt f ≠ s.fileAt g := by
  rcases scannedFiles_eq h with rfl | ⟨base, -, rfl⟩
  · exact .nil
  · rw [List.pairwise_filterMap]
    refine (List.pairwise_map.mp hregular.apart).imp_of_mem fun {d e} hd he hne f hf g hg heq => hne ?_
    obtain ⟨names, hnil, hlocation, rfl⟩ := scanned?_eq_some hf
    obtain ⟨others, hnil', hlocation', rfl⟩ := scanned?_eq_some hg
    have hnames : ∀ name ∈ names, IsName name := fun name hname =>
      hregular.names d hd name (hlocation ▸ List.mem_append_right base hname)
    have hothers : ∀ name ∈ others, IsName name := fun name hname =>
      hregular.names e he name (hlocation' ▸ List.mem_append_right base hname)
    rw [fileAt, fileAt, Path.ofText_joinWith hnil hnames, Path.ofText_joinWith hnil' hothers, Path.join_ofNames,
      Path.join_ofNames] at heq
    rw [hlocation, hlocation', List.append_cancel_left (congrArg Path.names heq)]

/-! ## Jobs that share nothing -/

/-- The job for a prospect: its target was not skipped, and its file is the one found or the destination. -/
theorem exists_resolution_of_jobOf? {p : Prospect} {job : Job} (h : s.jobOf? facts p = some job) :
    ∃ resolution, s.rules.evaluate p.targetPath facts = .ok resolution ∧ resolution.skip = false ∧
      job = ⟨p.targetPath, p.found.getD resolution.destination,
        s.settings.targetRoot.join (Path.ofText (p.found.getD resolution.destination))⟩ := by
  unfold jobOf? at h
  cases hevaluate : s.rules.evaluate p.targetPath facts with
  | error fault => rw [hevaluate] at h; cases h
  | ok resolution =>
    rw [hevaluate] at h
    obtain ⟨hkept, hjob⟩ := Option.ite_none_right_eq_some.mp h
    rw [Bool.and_eq_true, Bool.not_eq_true'] at hkept
    exact ⟨resolution, rfl, hkept.2, (Option.some.inj hjob).symm⟩

theorem jobOf?_eq_some {p : Prospect} {job : Job} (h : s.jobOf? facts p = some job) :
    job.targetPath = p.targetPath ∧ (∀ f, p.found = some f → job.file = s.fileAt f) ∧
      (p.found = none → ∃ d, s.SendsTo facts p.targetPath d ∧ job.file = s.fileAt d) := by
  obtain ⟨resolution, hevaluate, -, rfl⟩ := exists_resolution_of_jobOf? h
  refine ⟨rfl, fun f hf => ?_, fun hnone => ⟨_, ⟨resolution, hevaluate, rfl⟩, ?_⟩⟩
  · simp [hf, fileAt]
  · simp [hnone, fileAt]

/-- What different prospects keep apart is different for all jobs. -/
theorem nodup_jobs {α : Type} {ps : List Prospect} {jobs : List Job} (hjobs : jobs.Perm (ps.filterMap (s.jobOf? facts)))
    {what : Job → α} (hapart : ps.Pairwise fun p q => ∀ j, s.jobOf? facts p = some j →
      ∀ k, s.jobOf? facts q = some k → what j ≠ what k) : (jobs.map what).Nodup := by
  rw [(hjobs.map what).nodup_iff, List.Nodup, List.pairwise_map, List.pairwise_filterMap]
  exact hapart

/-- Scanned files are of one target only where a target is sent away from its own file. -/
theorem owner_inj {targets files : List Text} {places : Table Text} (hmaps : s.Maps facts targets places)
    (hclear : s.Untangled facts targets files) {f g : Text} (hf : f ∈ files) (hg : g ∈ files)
    (heq : (Table.get? f places).getD f = (Table.get? g places).getD g) : f = g := by
  -- what is left behind: the file of a target that is sent to another file
  have hleft : ∀ d t, t ∈ files → Table.get? d places = some t → Table.get? t places ≠ none := by
    intro d t ht hd
    obtain ⟨u, hu, hsent⟩ := hclear.vacated t (hmaps.sent d t hd).1 ht
    exact hmaps.taken u hu t hsent
  cases hf' : Table.get? f places with
  | none =>
    cases hg' : Table.get? g places with
    | none => simpa [hf', hg'] using heq
    | some u =>
      obtain rfl : f = u := by simpa [hf', hg'] using heq
      exact absurd hf' (hleft g f hf hg')
  | some t =>
    cases hg' : Table.get? g places with
    | none =>
      obtain rfl : t = g := by simpa [hf', hg'] using heq
      exact absurd hg' (hleft f t hg hf')
    | some u =>
      obtain rfl : t = u := by simpa [hf', hg'] using heq
      exact (hmaps.sent f t hf').2.unique (hmaps.sent g t hg').2

/-- Planning for generating: every job has a file of its own, and a target of its own where nothing is tangled. -/
theorem nodup_generate {ps : List Prospect} {jobs : List Job} (hregular : w.tree.IsRegular)
    (hps : (s.prospects facts .generate).value w = .ok ps) (hjobs : jobs.Perm (ps.filterMap (s.jobOf? facts))) :
    ∃ targets files, s.store.targets.value w = .ok targets ∧ s.scannedFiles.value w = .ok files ∧
      (jobs.map Job.file).Nodup ∧ (s.Untangled facts targets files → (jobs.map Job.targetPath).Nodup) := by
  obtain ⟨places, hplaces, hps⟩ := (s.looks_storedDestinations facts).bind_eq_ok hps
  obtain ⟨files, hfiles, hps⟩ := s.looks_scannedFiles.bind_eq_ok hps
  obtain ⟨targets, htargets, hmaps⟩ := maps_storedDestinations hplaces
  rw [← Except.ok.inj hps] at hjobs
  have hapart := pairwise_scannedFiles hregular hfiles
  refine ⟨targets, files, htargets, hfiles, nodup_jobs hjobs ?_, fun hclear => nodup_jobs hjobs ?_⟩
  · refine List.pairwise_map.mpr (hapart.imp fun {f g} hne j hj k hk => ?_)
    rwa [(jobOf?_eq_some hj).2.1 f rfl, (jobOf?_eq_some hk).2.1 g rfl]
  · refine List.pairwise_map.mpr (hapart.imp_of_mem fun {f g} hf hg hne j hj k hk heq => hne ?_)
    rw [(jobOf?_eq_some hj).1, (jobOf?_eq_some hk).1] at heq
    rw [owner_inj hmaps hclear hf hg heq]

/-- Planning for applying or clearing: every job has a target of its own, and a file of its own where nothing is
tangled. -/
theorem nodup_stored {targets : List Text} {jobs : List Job} (htargets : s.store.targets.value w = .ok targets)
    (hjobs : jobs.Perm ((targets.map fun target => ⟨target, none⟩).filterMap (s.jobOf? facts))) (files : List Text) :
    (jobs.map Job.targetPath).Nodup ∧ (s.Untangled facts targets files → (jobs.map Job.file).Nodup) := by
  have hapart := Store.nodup_targets htargets
  refine ⟨nodup_jobs hjobs ?_, fun hclear => nodup_jobs hjobs ?_⟩
  · refine List.pairwise_map.mpr (hapart.imp fun hne j hj k hk => ?_)
    rwa [(jobOf?_eq_some hj).1, (jobOf?_eq_some hk).1]
  · refine List.pairwise_map.mpr (hapart.imp_of_mem fun {t u} ht hu hne j hj k hk heq => hne ?_)
    obtain ⟨d, hd, hfile⟩ := (jobOf?_eq_some hj).2.2 rfl
    obtain ⟨e, he, hfile'⟩ := (jobOf?_eq_some hk).2.2 rfl
    exact hclear.apart t ht u hu d e hd he (hfile.symm.trans (heq.trans hfile'))

/-- No two jobs for generating are about one file, and no two for applying or clearing about one target. Where the rules
tangle nothing, no two jobs share a target or a file. -/
theorem plan_distinct {action : Action} {plan : Plan} (hregular : w.tree.IsRegular)
    (hplan : (s.plan action).outcome w = (.ok plan, w')) :
    (action = .generate → (plan.jobs.map Job.file).Nodup) ∧
      (action ≠ .generate → (plan.jobs.map Job.targetPath).Nodup) ∧
      ∃ facts targets files,
        (surveyFacts s.rules s.settings.targetRoot s.settings.defines).outcome w = (.ok facts, w) ∧
          s.store.targets.outcome w = (.ok targets, w) ∧ s.scannedFiles.outcome w = (.ok files, w) ∧
          (s.Untangled facts targets files →
            (plan.jobs.map Job.targetPath).Nodup ∧ (plan.jobs.map Job.file).Nodup) := by
  obtain ⟨facts, ps, hfacts, hps, hjobs⟩ := jobs_perm (congrArg Prod.fst hplan)
  have hsurvey := (looks_surveyFacts s.rules s.settings.targetRoot s.settings.defines).outcome_eq w
  rw [hfacts] at hsurvey
  have hstored : ∀ targets, s.store.targets.value w = .ok targets → s.store.targets.outcome w = (.ok targets, w) :=
    fun targets h => h ▸ s.store.looks_targets.outcome_eq w
  have hscanned : ∀ files, s.scannedFiles.value w = .ok files → s.scannedFiles.outcome w = (.ok files, w) :=
    fun files h => h ▸ s.looks_scannedFiles.outcome_eq w
  by_cases haction : action = .generate
  · subst haction
    obtain ⟨targets, files, htargets, hfiles, hnodup, hclear⟩ := nodup_generate hregular hps hjobs
    exact ⟨fun _ => hnodup, fun hne => absurd rfl hne, facts, targets, files, hsurvey, hstored _ htargets,
      hscanned _ hfiles, fun h => ⟨hclear h, hnodup⟩⟩
  · have hps' : (do return (← s.store.targets).map fun target => (⟨target, none⟩ : Prospect) : Attempt _).value w =
        .ok ps := by
      cases action with
      | generate => exact absurd rfl haction
      | apply => exact hps
      | clear => exact hps
    obtain ⟨targets, htargets, hps'⟩ := s.store.looks_targets.bind_eq_ok hps'
    rw [← Except.ok.inj hps'] at hjobs
    obtain ⟨files, hfiles⟩ : ∃ files, s.scannedFiles.value w = .ok files := ⟨_, rfl⟩
    obtain ⟨hnodup, hclear⟩ := nodup_stored htargets hjobs files
    exact ⟨fun h => absurd h haction, fun _ => hnodup, facts, targets, files, hsurvey, hstored _ htargets,
      hscanned _ hfiles, fun h => ⟨hnodup, hclear h⟩⟩

/-! ## A sample -/

/-- Settings for the files of one ending. -/
def sampleSettings : Settings where
  pluginRoot := ⟨.slash, ["plugin"]⟩
  targetRoot := ⟨.slash, ["engine"]⟩
  tag := "Mod"
  tag_nonblank := by decide
  patchDir := "patches"
  patchContext := 3
  contentTolerance := 0.5
  lineTolerance := 4000
  similarity := .exact
  extensions := [".cpp"]
  included := []
  excluded := []
  defines := []
  jobs := 0
  dryRun := false
  sandboxRoot := none
  conflictDir := none

/-- A session whose rules leave out the directories below `A`. -/
def sampleSession : Session where
  settings := sampleSettings
  rules := ⟨[], [⟨[], none, []⟩,
    ⟨"A", some 0, [⟨.flattenIf, "A", [⟨.always, [], false⟩], [], false, false, "Crysknife.ini", 2⟩]⟩]⟩
  sandbox := .live []
  matching := ⟨0.5, some 4000, exactSimilarity⟩

/-- The directories of the sample. -/
def sampleDirectories : List Location :=
  [["engine"], ["engine", "A"], ["engine", "A", "x"], ["plugin"], ["plugin", "patches"], ["plugin", "patches", "A"],
    ["plugin", "patches", "A", "x"], ["plugin", "patches", "A", "y"]]

/-- A world with empty files. -/
def worldOf (files : List Location) : World where
  tree := ⟨sampleDirectories.map (fun here => (here, .directory)) ++ files.map fun here => (here, .file (.text []))⟩
  cwd := []
  scratchBase := []
  clock := ⟨2024, 5, 1, 12, 0, 0, 0, some 0⟩

/-- The facts that the rules of the sample are evaluated with. -/
def sampleFacts : Facts := { existence := fun _ => .ok false }

theorem value_surveyFacts_sample (files : List Location) :
    (surveyFacts sampleSession.rules sampleSession.settings.targetRoot sampleSession.settings.defines).value
      (worldOf files) = .ok sampleFacts := rfl

/-- A plan is made of its prospects in their order. -/
theorem outcome_plan {action : Action} {ps : List Prospect} {plan : Plan}
    (hroot : w.tree.probe w.cwd s.settings.targetRoot = .ok (some .directory))
    (hfacts : (surveyFacts s.rules s.settings.targetRoot s.settings.defines).value w = .ok facts)
    (hps : (s.prospects facts action).value w = .ok ps) (horder : ps.Pairwise fun p q => p.before q = true)
    (hjobs : (ps.foldlM (s.addProspect facts) {}).value w = .ok plan) :
    (s.plan action).outcome w = (.ok plan, w) := by
  have hthere : (Attempt.isDirectory s.settings.targetRoot).value w = .ok true :=
    congrArg Prod.fst (Store.outcome_isDirectory hroot)
  rw [(s.looks_plan action).outcome_eq, Session.plan, (Attempt.looks_isDirectory _).value_bind, hthere]
  simp only [Except.bind, Bool.not_true, Bool.false_eq_true, if_false]
  rw [(looks_surveyFacts _ _ _).value_bind, hfacts]
  simp only [Except.bind]
  rw [(s.looks_prospects facts action).value_bind, hps]
  simp only [Except.bind, List.mergeSort_of_pairwise horder, hjobs]

/-- A file of a stored target, and one of no target. -/
def plainWorld : World :=
  worldOf [["engine", "A", "lib.cpp"], ["engine", "b.cpp"], ["plugin", "patches", "A", "x", "lib.cpp.0001.patch.json"]]

/-- The plan for generating there. -/
def plainPlan : Plan where
  jobs := [⟨"A/x/lib.cpp", "A/lib.cpp", ⟨.slash, ["engine", "A", "lib.cpp"]⟩⟩,
    ⟨"b.cpp", "b.cpp", ⟨.slash, ["engine", "b.cpp"]⟩⟩]

/-- The targets of the sample, if they are found in their order. -/
theorem value_targets_sample {files : List Location} {targets : List Text}
    (hprobe : (worldOf files).tree.probe [] sampleSession.store.root = .ok (some .directory))
    (hfound : (((worldOf files).tree.below [] sampleSession.store.root).filterMap fun d => Store.targetOf? d.1) = targets)
    (horder : targets.Pairwise fun t u => noLater t u = true) (honce : targets.eraseDups = targets) :
    sampleSession.store.targets.value (worldOf files) = .ok targets := by
  rw [Attempt.value, Store.outcome_targets rfl hprobe, if_pos rfl]
  refine congrArg Except.ok ?_
  rw [show (worldOf files).cwd = [] from rfl, hfound, List.mergeSort_of_pairwise horder, honce]

theorem value_targets_plainWorld : sampleSession.store.targets.value plainWorld = .ok ["A/x/lib.cpp"] :=
  value_targets_sample (by rfl) (by decide) (by decide) (by decide)

theorem outcome_plan_plainWorld : (sampleSession.plan .generate).outcome plainWorld = (.ok plainPlan, plainWorld) := by
  have hps : (sampleSession.prospects sampleFacts .generate).value plainWorld =
      .ok [⟨"A/x/lib.cpp", some "A/lib.cpp"⟩, ⟨"b.cpp", some "b.cpp"⟩] := by
    refine (Looks.value_bind (sampleSession.looks_storedDestinations _) _ _).trans ?_
    rw [storedDestinations, Looks.value_bind sampleSession.store.looks_targets, value_targets_plainWorld]
    with_unfolding_all rfl
  exact outcome_plan (by rfl) (value_surveyFacts_sample _) hps (by decide) (by with_unfolding_all rfl)

theorem plan_distinct_sample :
    plainWorld.tree.IsRegular ∧ (sampleSession.plan .generate).outcome plainWorld = (.ok plainPlan, plainWorld) ∧
      (plainPlan.jobs.map Job.targetPath).Nodup ∧ (plainPlan.jobs.map Job.file).Nodup := by
  have hregular : plainWorld.tree.IsRegular := by
    refine ⟨by decide, fun d hd name hname => ?_⟩
    have hgood : ∀ d ∈ plainWorld.tree.entries, ∀ name ∈ d.1, name ≠ [] ∧ name ≠ [char '.'] ∧ char '/' ∉ name := by
      decide
    obtain ⟨hne, hhere, hslash⟩ := hgood d hd name hname
    exact ⟨hne, hhere, hslash⟩
  obtain ⟨-, -, facts, targets, files, -, htargets, hfiles, hclear⟩ := plan_distinct hregular outcome_plan_plainWorld
  obtain rfl : [("A/x/lib.cpp" : Text)] = targets :=
    Except.ok.inj (value_targets_plainWorld.symm.trans (congrArg Prod.fst htargets))
  have hscanned : sampleSession.scannedFiles.value plainWorld = .ok ["A/lib.cpp", "b.cpp"] := by rfl
  obtain rfl : [("A/lib.cpp" : Text), "b.cpp"] = files := Except.ok.inj (hscanned.symm.trans (congrArg Prod.fst hfiles))
  refine ⟨hregular, outcome_plan_plainWorld, hclear ⟨fun t ht u hu _ _ _ _ _ => ?_, fun t ht hmem => ?_⟩⟩
  · rw [List.mem_singleton.mp ht, List.mem_singleton.mp hu]
  · rw [List.mem_singleton.mp ht] at hmem
    exact absurd hmem (by decide)

/-- Two stored targets that the rules send to one file, and a file at the place that one of them is sent away from. -/
def tangledWorld : World :=
  worldOf [["engine", "A", "lib.cpp"], ["engine", "A", "x", "lib.cpp"],
    ["plugin", "patches", "A", "x", "lib.cpp.0001.patch.json"],
    ["plugin", "patches", "A", "y", "lib.cpp.0001.patch.json"]]

theorem value_targets_tangledWorld :
    sampleSession.store.targets.value tangledWorld = .ok ["A/x/lib.cpp", "A/y/lib.cpp"] :=
  value_targets_sample (by rfl) (by decide) (by decide) (by decide)

/-- Where two stored targets go to one file, applying has two jobs for the file, and where a target is sent away from a
file that is there, generating has two jobs for the target. -/
theorem plan_tangled :
    (∃ plan, (sampleSession.plan .apply).outcome tangledWorld = (.ok plan, tangledWorld) ∧
        ¬ (plan.jobs.map Job.file).Nodup) ∧
      ∃ plan, (sampleSession.plan .generate).outcome tangledWorld = (.ok plan, tangledWorld) ∧
        ¬ (plan.jobs.map Job.targetPath).Nodup := by
  constructor
  · have hps : (sampleSession.prospects sampleFacts .apply).value tangledWorld =
        .ok [⟨"A/x/lib.cpp", none⟩, ⟨"A/y/lib.cpp", none⟩] := by
      refine (Looks.value_bind sampleSession.store.looks_targets _ _).trans ?_
      rw [value_targets_tangledWorld]
      rfl
    exact ⟨⟨[⟨"A/x/lib.cpp", "A/lib.cpp", ⟨.slash, ["engine", "A", "lib.cpp"]⟩⟩,
        ⟨"A/y/lib.cpp", "A/lib.cpp", ⟨.slash, ["engine", "A", "lib.cpp"]⟩⟩], []⟩,
      outcome_plan (by rfl) (value_surveyFacts_sample _) hps (by decide) (by with_unfolding_all rfl), by decide⟩
  · have hps : (sampleSession.prospects sampleFacts .generate).value tangledWorld =
        .ok [⟨"A/x/lib.cpp", some "A/lib.cpp"⟩, ⟨"A/x/lib.cpp", some "A/x/lib.cpp"⟩] := by
      refine (Looks.value_bind (sampleSession.looks_storedDestinations _) _ _).trans ?_
      rw [storedDestinations, Looks.value_bind sampleSession.store.looks_targets, value_targets_tangledWorld]
      with_unfolding_all rfl
    exact ⟨⟨[⟨"A/x/lib.cpp", "A/lib.cpp", ⟨.slash, ["engine", "A", "lib.cpp"]⟩⟩,
        ⟨"A/x/lib.cpp", "A/x/lib.cpp", ⟨.slash, ["engine", "A", "x", "lib.cpp"]⟩⟩], []⟩,
      outcome_plan (by rfl) (value_surveyFacts_sample _) hps (by decide) (by with_unfolding_all rfl), by decide⟩

end Session

end Regraft

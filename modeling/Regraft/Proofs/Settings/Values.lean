import Regraft.Proofs.Settings.Draft
import Regraft.Proofs.Settings.Layers
/-!
# The values of single settings

A layer gives values for settings, by section and key (`given?`). A draft shows such values where each of its fields is
what the value is read as (`SettingsDraft.Shows`): layers whose sections are nothing or mappings are read into the
drafts that show what they give (`readDraft_eq_ok_iff`). Values that pass the checks of their settings make a draft that
is in its ranges (`exists_shows`), and the defaults pass them (`isValid_default`).
-/
namespace Regraft

open Reading

/-- The value that a layer gives for a setting, by its section and its key. -/
def given? (layer : Table Json) (part key : Text) : Option Json := (Table.get? part layer).bind (Json.get? key)

/-- A section is nothing or a mapping. -/
def Json.IsSection (v : Json) : Prop := v = .null ∨ ∃ members, v = .object members

/-- What a draft says is what the values of the single settings are read as. -/
@[mk_iff]
structure SettingsDraft.Shows (d : SettingsDraft) (cwd : Location) (value : Text → Text → Json) : Prop where
  tag : tagOf cwd d.pluginRoot (value "plugin" "tag") = .ok d.tag
  patchDir : textOr defaultPatchDir (value "plugin" "patch_dir") = d.patchDir
  patchContext : integer "matching.patch_context" (value "matching" "patch_context") = .ok d.patchContext
  contentTolerance : number "matching.content_tolerance" (value "matching" "content_tolerance") = .ok d.contentTolerance
  lineTolerance : limit "matching.line_tolerance" (value "matching" "line_tolerance") = .ok d.lineTolerance
  similarity : textOr "exact" (value "matching" "line_similarity") = d.similarity
  extensions : ∃ ts, texts "scan.extensions" (value "scan" "extensions") = .ok ts ∧ ts.filterMap extensionOf = d.extensions
  included : texts "scan.include" (value "scan" "include") = .ok d.included
  excluded : texts "scan.exclude" (value "scan" "exclude") = .ok d.excluded
  jobs : jobsOf (value "run" "jobs") = .ok d.jobs
  dryRun : (!(value "run" "dry_run").isEmptyLike) = d.dryRun
  sandboxRoot : path? (value "run" "sandbox_root") = .ok d.sandboxRoot
  conflictDir : path? (value "run" "conflict_dir") = .ok d.conflictDir

variable {layers base later : Table Json} {cwd : Location} {value : Text → Text → Json}

/-- A setting in a section that is nothing or a mapping is read from the value that is given for it. -/
theorem settingIn_eq {α : Type} {part : String} (h : ∀ v, Table.get? (part : Text) layers = some v → v.IsSection)
    (key : String) (read : Json → Reading α) :
    settingIn layers part key read = read ((given? layers part key).getD .null) := by
  unfold settingIn sectionOf given?
  cases hget : Table.get? (part : Text) layers with
  | none => rfl
  | some v =>
    rcases h v hget with rfl | ⟨members, rfl⟩
    · rfl
    · cases members <;> rfl

/-- A draft is read from layers whose sections are nothing or mappings where it shows the values that are given. -/
theorem readDraft_eq_ok_iff {pluginRoot targetRoot : Path} {d : SettingsDraft} {defines : Table Json}
    (hsections : ∀ part ∈ settingSections, ∀ v, Table.get? part layers = some v → v.IsSection)
    (hdefines : sectionOf layers "defines" = .object defines) :
    readDraft cwd pluginRoot targetRoot layers = .ok d ↔
      d.pluginRoot = pluginRoot ∧ d.targetRoot = targetRoot ∧
        d.defines = Table.ofEntries (defines.map fun (k, v) => (k, v.plainText)) ∧
          d.Shows cwd fun part key => (given? layers part key).getD .null := by
  have hplugin := fun {α : Type} => settingIn_eq (α := α) (hsections "plugin" (by decide))
  have hmatching := fun {α : Type} => settingIn_eq (α := α) (hsections "matching" (by decide))
  have hscan := fun {α : Type} => settingIn_eq (α := α) (hsections "scan" (by decide))
  have hrun := fun {α : Type} => settingIn_eq (α := α) (hsections "run" (by decide))
  simp only [readDraft_eq, hdefines, hplugin, hmatching, hscan, hrun, bind_eq_ok]
  constructor
  · rintro ⟨tag, htag, extensions, hextensions, patchDir, hpatchDir, context, hcontext, content, hcontent, line, hline,
      similarity, hsimilarity, included, hincluded, excluded, hexcluded, jobs, hjobs, dryRun, hdryRun, sandbox, hsandbox,
      conflict, hconflict, h⟩
    obtain rfl := Except.ok.inj h
    exact ⟨rfl, rfl, rfl, htag, Except.ok.inj hpatchDir, hcontext, hcontent, hline, Except.ok.inj hsimilarity,
      ⟨extensions, hextensions, rfl⟩, hincluded, hexcluded, hjobs, Except.ok.inj hdryRun, hsandbox, hconflict⟩
  · rintro ⟨rfl, rfl, hd, h⟩
    obtain ⟨extensions, hextensions, hends⟩ := h.extensions
    refine ⟨_, h.tag, _, hextensions, _, congrArg _ h.patchDir, _, h.patchContext, _, h.contentTolerance, _,
      h.lineTolerance, _, congrArg _ h.similarity, _, h.included, _, h.excluded, _, h.jobs, _, congrArg _ h.dryRun, _,
      h.sandboxRoot, _, h.conflictDir, ?_⟩
    rw [hends, ← hd]
    rfl

/-- Two drafts that show the same values are the same. -/
theorem SettingsDraft.Shows.unique {d d' : SettingsDraft} (h : d.Shows cwd value) (h' : d'.Shows cwd value)
    (hplugin : d.pluginRoot = d'.pluginRoot) (htarget : d.targetRoot = d'.targetRoot) (hdefines : d.defines = d'.defines) :
    d = d' := by
  have hok {α : Type} {x : Reading α} {a b : α} (ha : x = .ok a) (hb : x = .ok b) : a = b :=
    Except.ok.inj (ha.symm.trans hb)
  obtain ⟨ts, hts, hends⟩ := h.extensions
  obtain ⟨ts', hts', hends'⟩ := h'.extensions
  have hextensions : d.extensions = d'.extensions := by rw [← hends, ← hends', hok hts hts']
  have htag : d.tag = d'.tag := hok h.tag (hplugin ▸ h'.tag)
  have hpatchDir := h.patchDir.symm.trans h'.patchDir
  have hsimilarity := h.similarity.symm.trans h'.similarity
  have hdryRun := h.dryRun.symm.trans h'.dryRun
  have hcontext := hok h.patchContext h'.patchContext
  have hcontent := hok h.contentTolerance h'.contentTolerance
  have hline := hok h.lineTolerance h'.lineTolerance
  have hincluded := hok h.included h'.included
  have hexcluded := hok h.excluded h'.excluded
  have hjobs := hok h.jobs h'.jobs
  have hsandbox := hok h.sandboxRoot h'.sandboxRoot
  have hconflict := hok h.conflictDir h'.conflictDir
  obtain ⟨⟩ := d
  obtain ⟨⟩ := d'
  simp only at *
  simp only [*]

/-! ## Valid values -/

/-- What the values of settings have to be: what can be read, and is in its range. -/
def settingChecks : List ((Text × Text) × (Json → Prop)) := [
  (("matching", "patch_context"), fun v => ∃ n : Nat, integer "matching.patch_context" v = .ok n),
  (("matching", "content_tolerance"), fun v => ∃ x, number "matching.content_tolerance" v = .ok x ∧ 0 ≤ x ∧ x ≤ 1),
  (("matching", "line_tolerance"), fun v => ∃ x, limit "matching.line_tolerance" v = .ok x ∧ ¬ x < 0),
  (("matching", "line_similarity"), fun v => ∃ name : SimilarityName, textOr "exact" v = name.word),
  (("scan", "extensions"), fun v => ∃ ts, texts "scan.extensions" v = .ok ts),
  (("scan", "include"), fun v => ∃ ts, texts "scan.include" v = .ok ts),
  (("scan", "exclude"), fun v => ∃ ts, texts "scan.exclude" v = .ok ts),
  (("run", "jobs"), fun v => ∃ n : Nat, jobsOf v = .ok n),
  (("run", "sandbox_root"), fun v => ∃ p, path? v = .ok p),
  (("run", "conflict_dir"), fun v => ∃ p, path? v = .ok p)]

/-- A value passes the checks of its setting. -/
def IsValid (part key : Text) (v : Json) : Prop := ∀ check ∈ settingChecks, check.1 = (part, key) → check.2 v

/-- What no check is about is valid. -/
theorem isValid_of_ne {part key : Text} (h : ∀ check ∈ settingChecks, check.1 ≠ (part, key)) (v : Json) :
    IsValid part key v :=
  fun check hcheck hplace => absurd hplace (h check hcheck)

/-- A setting has one check. -/
theorem isValid_iff_of_mem {part key : Text} {p : Json → Prop} (h : ((part, key), p) ∈ settingChecks) {v : Json} :
    IsValid part key v ↔ p v := by
  have hdistinct : (settingChecks.map Prod.fst).Nodup := by decide
  refine ⟨fun hv => hv _ h rfl, fun hv check hcheck hplace => ?_⟩
  have hsame : some check.2 = some p := by
    rw [← Table.get?_eq_some_of_mem hdistinct h, ← hplace]
    exact (Table.get?_eq_some_of_mem hdistinct hcheck).symm
  rwa [Option.some.inj hsame]

/-- Every default passes its own check. -/
theorem isValid_default :
    ∀ check ∈ settingChecks, check.2 ((given? templateLayer check.1.1 check.1.2).getD .null) := by
  simp only [settingChecks, List.forall_mem_cons, List.not_mem_nil, false_implies, implies_true, and_true]
  refine ⟨⟨50, rfl⟩, ⟨_, rfl, ?_, ?_⟩, ⟨_, rfl, ?_⟩, ⟨.exact, rfl⟩, ⟨_, rfl⟩, ⟨_, rfl⟩, ⟨_, rfl⟩, ⟨0, rfl⟩, ⟨_, rfl⟩,
    ⟨_, rfl⟩⟩ <;> decide

/-- Valid values, and a tag, make a draft that is in its ranges. -/
theorem exists_shows (hvalid : ∀ check ∈ settingChecks, check.2 (value check.1.1 check.1.2)) {pluginRoot : Path} {t : Text}
    (htag : tagOf cwd pluginRoot (value "plugin" "tag") = .ok t) (hnonblank : strip t ≠ []) (targetRoot : Path)
    (defines : Table Text) :
    ∃ d : SettingsDraft, d.pluginRoot = pluginRoot ∧ d.targetRoot = targetRoot ∧ d.defines = defines ∧
      d.Shows cwd value ∧ d.InRange := by
  simp only [settingChecks, List.forall_mem_cons, List.not_mem_nil, false_implies, implies_true, and_true] at hvalid
  obtain ⟨⟨context, hcontext⟩, ⟨content, hcontent, hrange⟩, ⟨line, hline, hpositive⟩, ⟨name, hname⟩,
    ⟨extensions, hextensions⟩, ⟨included, hincluded⟩, ⟨excluded, hexcluded⟩, ⟨jobs, hjobs⟩, ⟨sandbox, hsandbox⟩,
    ⟨conflict, hconflict⟩⟩ := hvalid
  refine ⟨⟨pluginRoot, targetRoot, t, _, context, content, line, name.word, _, included, excluded, defines, jobs, _,
    sandbox, conflict⟩, rfl, rfl, rfl,
    ⟨htag, rfl, hcontext, hcontent, hline, hname, ⟨extensions, hextensions, rfl⟩, hincluded, hexcluded, hjobs, rfl,
      hsandbox, hconflict⟩, ?_⟩
  exact ⟨hnonblank, Int.natCast_nonneg context, hrange, hpositive, ⟨name, rfl⟩, Int.natCast_nonneg jobs⟩

end Regraft

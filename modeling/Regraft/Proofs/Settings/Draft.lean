import Regraft.Proofs.Fallible
import Regraft.Settings.Build
/-!
# Drafts and settings

Settings are made of a draft whose values are in their ranges, and say what the draft says: written as a draft again
(`Settings.draft`), they are the draft that was checked (`SettingsDraft.check_eq_ok_iff`). A draft that is out of range
is refused with a cause (`SettingsDraft.check_eq_error`).
-/
namespace Regraft

/-- The values of a draft are in their ranges. -/
structure SettingsDraft.InRange (d : SettingsDraft) : Prop where
  tag : strip d.tag ≠ []
  context : 0 ≤ d.patchContext
  content : 0 ≤ d.contentTolerance ∧ d.contentTolerance ≤ 1
  line : ¬ d.lineTolerance < 0
  similarity : ∃ name : SimilarityName, d.similarity = name.word
  jobs : 0 ≤ d.jobs

/-- Settings, written as the draft they can be made of. -/
def Settings.draft (s : Settings) : SettingsDraft where
  pluginRoot := s.pluginRoot
  targetRoot := s.targetRoot
  tag := s.tag
  patchDir := s.patchDir
  patchContext := s.patchContext
  contentTolerance := s.contentTolerance
  lineTolerance := s.lineTolerance
  similarity := s.similarity.word
  extensions := s.extensions
  included := s.included
  excluded := s.excluded
  defines := s.defines
  jobs := s.jobs
  dryRun := s.dryRun
  sandboxRoot := s.sandboxRoot
  conflictDir := s.conflictDir

@[simp] theorem SimilarityName.ofWord?_word (name : SimilarityName) : ofWord? name.word = some name := by
  cases name <;> decide

theorem SimilarityName.ofWord?_eq_some_iff {t : Text} {name : SimilarityName} :
    ofWord? t = some name ↔ t = name.word := by
  refine ⟨fun h => ?_, fun h => h ▸ ofWord?_word name⟩
  have hword := List.find?_some h
  exact (of_decide_eq_true hword).symm

theorem SimilarityName.word_injective {a b : SimilarityName} (h : a.word = b.word) : a = b :=
  Option.some.inj ((ofWord?_word a).symm.trans ((congrArg ofWord? h).trans (ofWord?_word b)))

/-- Settings are told by their draft. -/
theorem Settings.draft_injective {s s' : Settings} (h : s.draft = s'.draft) : s = s' := by
  obtain ⟨⟩ := s
  obtain ⟨⟩ := s'
  simp only [draft, SettingsDraft.mk.injEq] at h
  obtain ⟨rfl, rfl, rfl, rfl, hcontext, rfl, rfl, hsimilarity, rfl, rfl, rfl, rfl, hjobs, rfl, rfl, rfl⟩ := h
  obtain rfl := SimilarityName.word_injective hsimilarity
  obtain rfl := Int.ofNat.inj hcontext
  obtain rfl := Int.ofNat.inj hjobs
  rfl

/-! ## Reading -/

/-- The sections whose members are settings. -/
def settingSections : List Text := ["plugin", "matching", "scan", "run"]

namespace Reading

variable {α : Type}

/-- A setting in a section, read. -/
def settingIn (layers : Table Json) (part key : String) (read : Json → Reading α) : Reading α :=
  setting (sectionOf layers part) key >>= read

/-- The value as a tag; the name of the directory of the plugin stands in for a blank one. -/
def tagOf (cwd : Location) (pluginRoot : Path) (v : Json) : Reading Text :=
  let given := strip (textOr [] v)
  if given.isEmpty then nameOf cwd pluginRoot else .ok given

/-- The value as a number of files that are worked on at once. -/
def jobsOf (v : Json) : Reading Int := if v.isEmptyLike then .ok 0 else integer "run.jobs" v

end Reading

open Reading in
/-- A draft is read setting by setting. -/
theorem readDraft_eq (cwd : Location) (pluginRoot targetRoot : Path) (layers : Table Json) :
    readDraft cwd pluginRoot targetRoot layers =
      match sectionOf layers "defines" with
      | .object defines => do
        let tag ← settingIn layers "plugin" "tag" (tagOf cwd pluginRoot)
        let extensions ← settingIn layers "scan" "extensions" (texts "scan.extensions")
        let patchDir ← settingIn layers "plugin" "patch_dir" fun v => .ok (textOr defaultPatchDir v)
        let patchContext ← settingIn layers "matching" "patch_context" (integer "matching.patch_context")
        let contentTolerance ← settingIn layers "matching" "content_tolerance" (number "matching.content_tolerance")
        let lineTolerance ← settingIn layers "matching" "line_tolerance" (limit "matching.line_tolerance")
        let similarity ← settingIn layers "matching" "line_similarity" fun v => .ok (textOr "exact" v)
        let included ← settingIn layers "scan" "include" (texts "scan.include")
        let excluded ← settingIn layers "scan" "exclude" (texts "scan.exclude")
        let jobs ← settingIn layers "run" "jobs" jobsOf
        let dryRun ← settingIn layers "run" "dry_run" fun v => .ok (!v.isEmptyLike)
        let sandboxRoot ← settingIn layers "run" "sandbox_root" path?
        let conflictDir ← settingIn layers "run" "conflict_dir" path?
        return {
          pluginRoot, targetRoot, tag, patchDir, patchContext, contentTolerance, lineTolerance, similarity
          extensions := extensions.filterMap extensionOf
          included, excluded
          defines := Table.ofEntries (defines.map fun (k, v) => (k, v.plainText))
          jobs, dryRun, sandboxRoot, conflictDir }
      | _ => invalid .definesNoMapping := by
  have hite {α β : Type} (c : Prop) [Decidable c] (x y : Reading α) (next : α → Reading β) :
      (if c then x else y) >>= next = if c then x >>= next else y >>= next := by split <;> rfl
  have hok {α : Type} (a : α) : (Except.ok a : Reading α) = pure a := rfl
  unfold readDraft
  cases sectionOf layers "defines" with
  | object defines => simp only [settingIn, tagOf, jobsOf, bind_assoc, hok, pure_bind, hite]
  | _ => rfl

/-! ## Checking -/

namespace Reading

variable {α β : Type} {P : SettingsFault → Prop}

/-- The fault that stops a reading. -/
def fault? : Reading α → Option SettingsFault
  | .ok _ => none
  | .error fault => some fault

theorem fault?_eq_some_iff {x : Reading α} {fault : SettingsFault} : x.fault? = some fault ↔ x = .error fault := by
  cases x <;> simp [fault?]

/-- Every fault that a reading stops with is of a kind. -/
def StopsOnly (P : SettingsFault → Prop) (x : Reading α) : Prop := ∀ fault, x = .error fault → P fault

theorem StopsOnly.bind {x : Reading α} {next : α → Reading β} (hx : StopsOnly P x)
    (hnext : ∀ a, x = .ok a → StopsOnly P (next a)) : StopsOnly P (x >>= next) := by
  intro fault h
  rcases bind_eq_error.mp h with h | ⟨a, ha, h⟩
  · exact hx fault h
  · exact hnext a ha fault h

/-- What comes behind a check goes on where the check does not stop it. -/
theorem refuseIf_eq_ok {c : Prop} [Decidable c] {cause : SettingsCause} {next : PUnit → Reading α} {a : α} :
    (if c then invalid cause >>= next else next ⟨⟩) = .ok a ↔ ¬ c ∧ next ⟨⟩ = .ok a := by
  by_cases hc : c <;> simp [hc, invalid, bind, Except.bind]

end Reading

namespace SettingsDraft

open Reading

variable {d : SettingsDraft} {s : Settings}

theorem check_eq_ok_iff : d.check = .ok s ↔ d.InRange ∧ s.draft = d := by
  unfold check
  split
  · rename_i htag
    exact ⟨nofun, fun h => absurd htag h.1.tag⟩
  rename_i htag
  simp only [refuseIf_eq_ok]
  constructor
  · rintro ⟨hcontext, hcontent, hline, h⟩
    split at h
    · cases h
    rename_i name hname
    obtain ⟨hjobs, h⟩ := refuseIf_eq_ok.mp h
    obtain rfl := Except.ok.inj h
    have hword := SimilarityName.ofWord?_eq_some_iff.mp hname
    have hcontext := Int.not_lt.mp hcontext
    have hjobs := Int.not_lt.mp hjobs
    refine ⟨⟨htag, hcontext, Decidable.not_not.mp hcontent, hline, ⟨name, hword⟩, hjobs⟩, ?_⟩
    simp only [Settings.draft, Int.toNat_of_nonneg hcontext, Int.toNat_of_nonneg hjobs, ← hword]
  · rintro ⟨h, rfl⟩
    refine ⟨Int.not_lt.mpr h.context, not_not_intro h.content, h.line, ?_⟩
    rw [show s.draft.similarity = s.similarity.word from rfl, SimilarityName.ofWord?_word]
    exact refuseIf_eq_ok.mpr ⟨Int.not_lt.mpr h.jobs, rfl⟩

/-- A draft that is in its ranges is that of settings. -/
theorem InRange.exists_settings (h : d.InRange) : ∃ s : Settings, s.draft = d := by
  obtain ⟨name, hname⟩ := h.similarity
  refine ⟨⟨d.pluginRoot, d.targetRoot, d.tag, h.tag, d.patchDir, d.patchContext.toNat, d.contentTolerance,
    d.lineTolerance, name, d.extensions, d.included, d.excluded, d.defines, d.jobs.toNat, d.dryRun, d.sandboxRoot, d.conflictDir⟩, ?_⟩
  simp only [Settings.draft, Int.toNat_of_nonneg h.context, Int.toNat_of_nonneg h.jobs, ← hname]

end SettingsDraft

/-- The settings that layers come to are those that are read, if they are in their ranges. -/
theorem buildSettings_eq_ok_iff {cwd : Location} {pluginRoot targetRoot : Path} {file overrides : Table Json}
    {s : Settings} :
    buildSettings cwd pluginRoot targetRoot file overrides = .ok s ↔
      readDraft cwd pluginRoot targetRoot (mergeLayers file overrides) = .ok s.draft ∧ s.draft.InRange := by
  rw [buildSettings, bind_eq_ok]
  constructor
  · rintro ⟨d, hd, hcheck⟩
    obtain ⟨hrange, rfl⟩ := SettingsDraft.check_eq_ok_iff.mp hcheck
    exact ⟨hd, hrange⟩
  · rintro ⟨hd, hrange⟩
    exact ⟨_, hd, SettingsDraft.check_eq_ok_iff.mpr ⟨hrange, rfl⟩⟩

end Regraft

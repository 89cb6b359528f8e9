import Regraft.Proofs.Settings.Merging
/-!
# Settings in three layers

Each setting has the value of the command line if there is one, else that of the file, else the default (`layered`), and
variables go name by name. That is what the layers are built into, as long as no section of the file that is nothing
takes a default away that is needed (`buildSettings_layered`): merging lets such a section replace the section of the
template. Of the defaults, only three are read otherwise than nothing is: the number of lines, the tolerance for their
contents, and the ends of names (`KeepsDefaults`).
-/
namespace Regraft

open Reading

variable {file overrides : Table Json} {part key : Text}

/-- The value of a setting: that of the command line if there is one, else that of the file, else the default. -/
def layered (file overrides : Table Json) (part key : Text) : Json :=
  ((given? overrides part key).or ((given? file part key).or (given? templateLayer part key))).getD .null

/-- A section of the file that is nothing takes no default away that is needed. -/
structure KeepsDefaults (file overrides : Table Json) : Prop where
  context : Table.get? ("matching" : Text) file = some .null → (given? overrides "matching" "patch_context").isSome
  content : Table.get? ("matching" : Text) file = some .null → (given? overrides "matching" "content_tolerance").isSome
  extensions : Table.get? ("scan" : Text) file = some .null → (given? overrides "scan" "extensions").isSome

/-- Settings show the values of their layers, setting by setting and variable by variable. -/
structure Settings.Shows (s : Settings) (cwd : Location) (file overrides : Table Json) : Prop where
  values : s.draft.Shows cwd (layered file overrides)
  defines : s.defines = Table.overlay (definesIn file) (definesIn overrides)
  defined : ∀ name, Table.get? name s.defines =
    ((given? overrides "defines" name).or (given? file "defines" name)).map Json.plainText

/-! ## Reading merged layers -/

section

variable (hfile : IsLayer file) (hoverrides : IsLayer overrides) (hpart : part ∈ layerSections)

include hfile hoverrides hpart

/-- What is read from the merged layers is what is read from the value of the layers, unless a default that is gone would
be read as something else. -/
theorem read_mergeLayers {α : Type} (hapart : KeptApart file overrides) (read : Json → α)
    (hneutral : Table.get? part file = some .null → given? overrides part key = none →
      read .null = read ((given? templateLayer part key).getD .null)) :
    read ((given? (mergeLayers file overrides) part key).getD .null) = read (layered file overrides part key) := by
  by_cases hnull : Table.get? part file = some .null
  · rw [given?_mergeLayers_of_null hfile hoverrides hpart hnull, layered]
    have hfile : given? file part key = none := by rw [given?, hnull]; rfl
    cases hgiven : given? overrides part key with
    | none => rw [hfile, Option.none_or, Option.none_or, Option.getD_none, hneutral hnull hgiven]
    | some v => rfl
  · rw [given?_mergeLayers hfile hoverrides hpart hapart hnull, layered]

end

/-- The values of the layers are valid. -/
theorem isValid_layered (hfile : IsLayer file) (hoverrides : IsLayer overrides) :
    ∀ check ∈ settingChecks, check.2 (layered file overrides check.1.1 check.1.2) := by
  intro check hcheck
  have hpart : check.1.1 ∈ layerSections := by
    have hparts : ∀ check ∈ settingChecks, check.1.1 ∈ layerSections := by
      decide
    exact hparts check hcheck
  have hvalid {layer : Table Json} (hlayer : IsLayer layer) {v : Json}
      (hv : given? layer check.1.1 check.1.2 = some v) : check.2 v := by
    obtain ⟨w, hw, hkey⟩ := Option.bind_eq_some_iff.mp hv
    rcases hlayer.sections _ hpart w hw with rfl | ⟨members, rfl, -, hmembers⟩
    · cases hkey
    · exact hmembers _ (Table.mem_of_get?_eq_some hkey) check hcheck rfl
  unfold layered
  cases hgiven : given? overrides check.1.1 check.1.2 with
  | some v => exact hvalid hoverrides hgiven
  | none =>
    cases hgiven : given? file check.1.1 check.1.2 with
    | some v => exact hvalid hfile hgiven
    | none => exact isValid_default check hcheck

section

variable (hfile : IsLayer file) (hoverrides : IsLayer overrides) (hapart : KeptApart file overrides)

include hfile hoverrides hapart

/-- Where no default is gone that is needed, the merged layers are read as their values say. -/
theorem shows_mergeLayers_iff (hkeeps : KeepsDefaults file overrides) {cwd : Location} {d : SettingsDraft} :
    (d.Shows cwd fun part key => (given? (mergeLayers file overrides) part key).getD .null) ↔
      d.Shows cwd (layered file overrides) := by
  have hneutral {α : Type} {part : Text} (hpart : part ∈ layerSections) (key : Text) (read : Json → α)
      (h : read .null = read ((given? templateLayer part key).getD .null)) :
      read ((given? (mergeLayers file overrides) part key).getD .null) = read (layered file overrides part key) :=
    read_mergeLayers hfile hoverrides hpart hapart read fun _ _ => h
  -- the three settings whose defaults are not read like nothing
  have hgiven {α : Type} {part key : Text} (hpart : part ∈ layerSections) (read : Json → α)
      (h : Table.get? part file = some .null → (given? overrides part key).isSome) :
      read ((given? (mergeLayers file overrides) part key).getD .null) = read (layered file overrides part key) :=
    read_mergeLayers hfile hoverrides hpart hapart read fun hnull hnone => by
      rw [hnone] at h
      cases h hnull
  have hplugin : Text.ofString "plugin" ∈ layerSections := by decide
  have hmatching : Text.ofString "matching" ∈ layerSections := by decide
  have hscan : Text.ofString "scan" ∈ layerSections := by decide
  have hrun : Text.ofString "run" ∈ layerSections := by decide
  simp only [SettingsDraft.shows_iff, hneutral hplugin "tag" (tagOf cwd d.pluginRoot) rfl,
    hneutral hplugin "patch_dir" (textOr defaultPatchDir) rfl,
    hgiven hmatching (integer "matching.patch_context") hkeeps.context,
    hgiven hmatching (number "matching.content_tolerance") hkeeps.content,
    hneutral hmatching "line_tolerance" (limit "matching.line_tolerance") rfl,
    hneutral hmatching "line_similarity" (textOr "exact") rfl,
    hgiven hscan (texts "scan.extensions") hkeeps.extensions,
    hneutral hscan "include" (texts "scan.include") rfl, hneutral hscan "exclude" (texts "scan.exclude") rfl,
    hneutral hrun "jobs" jobsOf rfl, hneutral hrun "dry_run" Json.isEmptyLike rfl,
    hneutral hrun "sandbox_root" path? rfl, hneutral hrun "conflict_dir" path? rfl]

end

/-! ## Settings of three layers -/

section

variable (hfile : IsLayer file) (hoverrides : IsLayer overrides) (hapart : KeptApart file overrides) {cwd : Location}
  {pluginRoot targetRoot : Path}

include hfile hoverrides hapart

/-- What layers are built into: settings in their ranges that show what the merged layers give. -/
theorem buildSettings_eq_ok_iff_shows {s : Settings} :
    buildSettings cwd pluginRoot targetRoot file overrides = .ok s ↔
      (s.pluginRoot = pluginRoot ∧ s.targetRoot = targetRoot ∧
        s.defines = Table.overlay (definesIn file) (definesIn overrides) ∧
        s.draft.Shows cwd fun part key => (given? (mergeLayers file overrides) part key).getD .null) ∧
      s.draft.InRange := by
  have hsections : ∀ part ∈ settingSections, ∀ v, Table.get? part (mergeLayers file overrides) = some v → v.IsSection :=
    fun part hpart => isSection_mergeLayers hfile hoverrides (List.mem_append_left _ hpart)
  rw [buildSettings_eq_ok_iff, readDraft_eq_ok_iff hsections (sectionOf_defines hfile hoverrides hapart),
    Table.ofEntries_of_nodup, Table.map_overlay]
  · rfl
  · rw [List.map_map]
    exact Table.nodup_overlay (nodup_definesMembers hfile) _

/-- Settings that show their layers come out where no default is gone that is needed. -/
theorem exists_buildSettings (targetRoot : Path) (hkeeps : KeepsDefaults file overrides)
    (htag : ∃ t, tagOf cwd pluginRoot (layered file overrides "plugin" "tag") = .ok t ∧ strip t ≠ []) :
    ∃ s, buildSettings cwd pluginRoot targetRoot file overrides = .ok s ∧ s.pluginRoot = pluginRoot ∧
      s.targetRoot = targetRoot ∧ s.Shows cwd file overrides := by
  obtain ⟨t, htag, hnonblank⟩ := htag
  obtain ⟨d, hplugin, htarget, hdefines, hshows, hrange⟩ := exists_shows (isValid_layered hfile hoverrides) htag
    hnonblank targetRoot (Table.overlay (definesIn file) (definesIn overrides))
  obtain ⟨s, rfl⟩ := hrange.exists_settings
  have hmerged := (shows_mergeLayers_iff hfile hoverrides hapart hkeeps).mpr hshows
  refine ⟨s, ?_, hplugin, htarget, hshows, hdefines, fun name => ?_⟩
  · exact (buildSettings_eq_ok_iff_shows hfile hoverrides hapart).mpr
      ⟨⟨hplugin, htarget, hdefines, hmerged⟩, hrange⟩
  · rw [show s.defines = _ from hdefines, Table.get?_overlay (nodup_definesIn hoverrides), get?_definesIn, get?_definesIn,
      Option.map_or]

/-- Where settings show their layers, no default is gone that is needed. -/
theorem keepsDefaults_of_shows {s : Settings} (hbuild : buildSettings cwd pluginRoot targetRoot file overrides = .ok s)
    (hshows : s.draft.Shows cwd (layered file overrides)) : KeepsDefaults file overrides := by
  obtain ⟨⟨-, -, -, hmerged⟩, -⟩ := (buildSettings_eq_ok_iff_shows hfile hoverrides hapart).mp hbuild
  have hgone {part key : Text} (hpart : part ∈ layerSections) (hnull : Table.get? part file = some .null)
      (hnone : ¬ (given? overrides part key).isSome) :
      (given? (mergeLayers file overrides) part key).getD .null = .null := by
    rw [given?_mergeLayers_of_null hfile hoverrides hpart hnull, Option.not_isSome_iff_eq_none.mp hnone,
      Option.getD_none]
  refine ⟨fun hnull => ?context, fun hnull => ?content, fun hnull => ?extensions⟩ <;> by_contra hnone
  case context =>
    have hread := hmerged.patchContext
    rw [hgone (by decide) hnull hnone] at hread
    cases hread
  case content =>
    have hread := hmerged.contentTolerance
    rw [hgone (by decide) hnull hnone] at hread
    cases hread
  case extensions =>
    obtain ⟨ts, hread, hends⟩ := hmerged.extensions
    rw [hgone (by decide) hnull hnone] at hread
    obtain rfl := Except.ok.inj hread
    obtain ⟨ts', hread', hends'⟩ := hshows.extensions
    have hfile : given? file "scan" "extensions" = none := by rw [given?, hnull]; rfl
    rw [layered, Option.not_isSome_iff_eq_none.mp hnone, hfile] at hread'
    obtain rfl := Except.ok.inj hread'
    exact absurd (hends.trans hends'.symm) (by decide)

end

/-! ## Sections left out -/

/-- A file without a section. -/
def dropSection (part : Text) (file : Table Json) : Table Json := file.filter fun e => e.1 ≠ part

section

variable (hfile : IsLayer file)

include hfile

theorem get?_dropSection (part other : Text) :
    Table.get? other (dropSection part file) = (Table.get? other file).filter fun _ => other ≠ part :=
  Table.get?_filter hfile.distinct _

theorem isLayer_dropSection (part : Text) : IsLayer (dropSection part file) where
  distinct := (List.filter_sublist.map Prod.fst).nodup hfile.distinct
  sections other hother v hv := by
    rw [get?_dropSection hfile, Option.filter_eq_some_iff] at hv
    exact hfile.sections other hother v hv.1

/-- A section that is left out takes no default away. -/
theorem KeepsDefaults.dropSection (h : KeepsDefaults file overrides) (part : Text) :
    KeepsDefaults (dropSection part file) overrides := by
  have hnull {other : Text} (hother : Table.get? other (Regraft.dropSection part file) = some .null) :
      Table.get? other file = some .null := by
    rw [get?_dropSection hfile, Option.filter_eq_some_iff] at hother
    exact hother.1
  exact ⟨fun h' => h.context (hnull h'), fun h' => h.content (hnull h'), fun h' => h.extensions (hnull h')⟩

variable (hpart : Table.get? part file = some .null)

include hpart

theorem given?_dropSection (other key : Text) : given? (dropSection part file) other key = given? file other key := by
  rw [given?, given?, get?_dropSection hfile]
  by_cases hother : other = part
  · subst hother
    rw [hpart]
    simp [Json.get?]
  · cases Table.get? other file <;> simp [Option.filter, hother]

theorem definesIn_dropSection : definesIn (dropSection part file) = definesIn file := by
  rw [definesIn, definesIn, definesMembers, definesMembers, get?_dropSection hfile]
  by_cases hother : Text.ofString "defines" = part
  · subst hother
    rw [hpart]
    simp [Json.members?]
  · cases Table.get? (Text.ofString "defines") file <;> simp [Option.filter, hother]

end

/-- An empty section of the file comes to the section of the template. -/
theorem get?_mergeLayers_dropSection (hfile : IsLayer file) (hoverrides : IsLayer overrides)
    (hpart : Table.get? part file = some (.object [])) {name : Text} (hname : name ∈ layerSections) :
    Table.get? name (mergeLayers (dropSection part file) overrides) = Table.get? name (mergeLayers file overrides) := by
  have hfile' := isLayer_dropSection hfile part
  simp only [mergeLayers_eq, get?_mergeMembers hoverrides.present.distinct, get?_mergeMembers hfile.distinct,
    get?_mergeMembers hfile'.distinct, get?_dropSection hfile]
  by_cases hother : name = part
  · subst hother
    have hdefault : ∀ name ∈ layerSections, ∃ members, Table.get? name templateLayer = some (.object members) := by
      simp only [layerSections, settingSections, List.cons_append, List.nil_append, List.forall_mem_cons,
        List.not_mem_nil, false_implies, implies_true, and_true]
      exact ⟨⟨_, rfl⟩, ⟨_, rfl⟩, ⟨_, rfl⟩, ⟨_, rfl⟩, ⟨_, rfl⟩⟩
    obtain ⟨members, hmembers⟩ := hdefault name hname
    simp [hpart, hmembers, Option.filter]
  · cases Table.get? name file <;> simp [Option.filter, hother]

theorem buildSettings_dropSection (hfile : IsLayer file) (hoverrides : IsLayer overrides)
    (hpart : Table.get? part file = some (.object [])) (cwd : Location) (pluginRoot targetRoot : Path) :
    buildSettings cwd pluginRoot targetRoot (dropSection part file) overrides =
      buildSettings cwd pluginRoot targetRoot file overrides := by
  have hsection (name : String) (hname : (name : Text) ∈ layerSections) :
      sectionOf (mergeLayers (dropSection part file) overrides) name = sectionOf (mergeLayers file overrides) name := by
    rw [sectionOf, get?_mergeLayers_dropSection hfile hoverrides hpart hname, sectionOf]
  simp only [buildSettings, readDraft, hsection "plugin" (by decide), hsection "matching" (by decide),
    hsection "scan" (by decide), hsection "run" (by decide), hsection "defines" (by decide)]

/-! ## Three layers -/

/-- Settings in three layers: each is the value of the command line, else of the file, else the default, unless a section
of the file that is nothing takes a default away. A section that is empty, or takes none away, may as well be left out. -/
theorem buildSettings_layered (hfile : IsLayer file) (hoverrides : IsLayer overrides) (hapart : KeptApart file overrides)
    (cwd : Location) (pluginRoot targetRoot : Path)
    (htag : ∃ t, tagOf cwd pluginRoot (layered file overrides "plugin" "tag") = .ok t ∧ strip t ≠ []) :
    ((∃ s, buildSettings cwd pluginRoot targetRoot file overrides = .ok s ∧ s.pluginRoot = pluginRoot ∧
        s.targetRoot = targetRoot ∧ s.Shows cwd file overrides) ↔ KeepsDefaults file overrides) ∧
      ∀ part, Table.get? part file = some (.object []) ∨
          Table.get? part file = some .null ∧ KeepsDefaults file overrides →
        buildSettings cwd pluginRoot targetRoot (dropSection part file) overrides =
          buildSettings cwd pluginRoot targetRoot file overrides := by
  refine ⟨⟨fun ⟨s, hbuild, _, _, hshows⟩ => keepsDefaults_of_shows hfile hoverrides hapart hbuild hshows.values,
    fun hkeeps => exists_buildSettings hfile hoverrides hapart targetRoot hkeeps htag⟩, fun part hpart => ?_⟩
  rcases hpart with hpart | ⟨hpart, hkeeps⟩
  · exact buildSettings_dropSection hfile hoverrides hpart cwd pluginRoot targetRoot
  have hgiven := given?_dropSection hfile hpart
  have hlayered : layered (dropSection part file) overrides = layered file overrides := by
    funext other key
    rw [layered, layered, hgiven]
  have hapart' : KeptApart (dropSection part file) overrides := fun other key members members' h =>
    hapart other key members members' (hgiven other key ▸ h)
  obtain ⟨s, hbuild, hplugin, htarget, hshows⟩ := exists_buildSettings hfile hoverrides hapart targetRoot hkeeps htag
  obtain ⟨s', hbuild', hplugin', htarget', hshows'⟩ := exists_buildSettings (isLayer_dropSection hfile part) hoverrides
    hapart' targetRoot (hkeeps.dropSection hfile part) (hlayered ▸ htag)
  have hdefines : s'.defines = s.defines := by
    rw [hshows'.defines, hshows.defines, definesIn_dropSection hfile hpart]
  have hdraft : s'.draft = s.draft := SettingsDraft.Shows.unique (hlayered ▸ hshows'.values) hshows.values
    (hplugin'.trans hplugin.symm) (htarget'.trans htarget.symm) hdefines
  rw [hbuild, hbuild', Settings.draft_injective hdraft]

/-- A settings file that says something in two sections. -/
def sampleSettingsFile : Table Json := [
  ("plugin", .null),
  ("matching", .object [("content_tolerance", .float 1)]),
  ("run", .object []),
  ("defines", .object [("A", .int 1), ("B", .text "x")])]

/-- A command line that says something in two sections. -/
def sampleOverrides : Table Json := [
  ("matching", .object [("patch_context", .int 7)]),
  ("scan", .null),
  ("defines", .object [("B", .text "y")])]

theorem isValid_defines (name : Text) (v : Json) : IsValid "defines" name v := by
  have hparts : ∀ check ∈ settingChecks, check.1.1 ≠ Text.ofString "defines" := by decide
  exact isValid_of_ne (fun check hcheck hplace => hparts check hcheck (congrArg Prod.fst hplace)) v

theorem isLayer_sampleSettingsFile : IsLayer sampleSettingsFile := by
  have hcontent : IsValid "matching" "content_tolerance" (.float 1) :=
    (isValid_iff_of_mem (.tail _ (.head _))).mpr ⟨1, rfl, by decide⟩
  refine ⟨by decide, fun part _ v hv => ?_⟩
  have hmem := Table.mem_of_get?_eq_some hv
  simp only [sampleSettingsFile, List.mem_cons, Prod.mk.injEq, List.not_mem_nil, or_false] at hmem
  rcases hmem with ⟨rfl, rfl⟩ | ⟨rfl, rfl⟩ | ⟨rfl, rfl⟩ | ⟨rfl, rfl⟩
  · exact .inl rfl
  · exact .inr ⟨_, rfl, by decide, by simpa using hcontent⟩
  · exact .inr ⟨_, rfl, by decide, nofun⟩
  · exact .inr ⟨_, rfl, by decide, by simp [isValid_defines]⟩

theorem isLayer_sampleOverrides : IsLayer sampleOverrides := by
  have hcontext : IsValid "matching" "patch_context" (.int 7) := (isValid_iff_of_mem (.head _)).mpr ⟨7, rfl⟩
  refine ⟨by decide, fun part _ v hv => ?_⟩
  have hmem := Table.mem_of_get?_eq_some hv
  simp only [sampleOverrides, List.mem_cons, Prod.mk.injEq, List.not_mem_nil, or_false] at hmem
  rcases hmem with ⟨rfl, rfl⟩ | ⟨rfl, rfl⟩ | ⟨rfl, rfl⟩
  · exact .inr ⟨_, rfl, by decide, by simpa using hcontext⟩
  · exact .inl rfl
  · exact .inr ⟨_, rfl, by decide, by simp [isValid_defines]⟩

theorem apart_sample : KeptApart sampleSettingsFile sampleOverrides := by
  intro part key members members' h
  obtain ⟨v, hv, hkey⟩ := Option.bind_eq_some_iff.mp h
  have hmem := Table.mem_of_get?_eq_some hv
  simp only [sampleSettingsFile, List.mem_cons, Prod.mk.injEq, List.not_mem_nil, or_false] at hmem
  rcases hmem with ⟨-, rfl⟩ | ⟨-, rfl⟩ | ⟨-, rfl⟩ | ⟨-, rfl⟩
  · cases hkey
  · have hentry := Table.mem_of_get?_eq_some hkey
    simp at hentry
  · cases hkey
  · have hentry := Table.mem_of_get?_eq_some hkey
    simp at hentry

/-- The number of lines is that of the command line, the tag is the name of the plugin, and of two variables one comes
from the file. -/
theorem buildSettings_layered_sample :
    IsLayer sampleSettingsFile ∧ IsLayer sampleOverrides ∧ KeptApart sampleSettingsFile sampleOverrides ∧
      ∃ s, buildSettings [] ⟨.relative, ["P"]⟩ ⟨.relative, ["engine"]⟩ sampleSettingsFile sampleOverrides = .ok s ∧
        s.tag = "P" ∧ s.patchContext = 7 ∧ s.defines = ([("A", "1"), ("B", "y")] : Table Text) := by
  have hkeeps : KeepsDefaults sampleSettingsFile sampleOverrides := ⟨nofun, nofun, nofun⟩
  obtain ⟨s, hbuild, hplugin, -, hshows⟩ := (buildSettings_layered isLayer_sampleSettingsFile isLayer_sampleOverrides
    apart_sample [] ⟨.relative, ["P"]⟩ ⟨.relative, ["engine"]⟩ ⟨"P", rfl, by decide⟩).1.mpr hkeeps
  refine ⟨isLayer_sampleSettingsFile, isLayer_sampleOverrides, apart_sample, s, hbuild, ?_, ?_, hshows.defines⟩
  · have htag := hshows.values.tag
    rw [show s.draft.pluginRoot = _ from hplugin] at htag
    exact (Except.ok.inj htag).symm
  · exact (Int.ofNat.inj (Except.ok.inj hshows.values.patchContext)).symm

/-- A section of the file that is nothing takes its defaults away: there is no number of lines then, and no ends of
names. -/
theorem buildSettings_erased :
    buildSettings [] ⟨.relative, ["P"]⟩ ⟨.relative, ["engine"]⟩ [("matching", .null)] [] =
        .error (.invalid (.notAnInteger "matching.patch_context" "None")) ∧
      ∃ s, buildSettings [] ⟨.relative, ["P"]⟩ ⟨.relative, ["engine"]⟩ [("scan", .null)] [] = .ok s ∧
        s.extensions = [] := by
  refine ⟨fault?_eq_some_iff.mp (by decide), ?_⟩
  have hnone : (buildSettings [] ⟨.relative, ["P"]⟩ ⟨.relative, ["engine"]⟩ [("scan", .null)] []).toOption.map
      Settings.extensions = some [] := by decide
  obtain ⟨s, hs, hextensions⟩ := Option.map_eq_some_iff.mp hnone
  exact ⟨s, eq_ok_of_toOption hs, hextensions⟩

end Regraft

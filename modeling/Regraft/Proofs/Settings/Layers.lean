import Regraft.Settings.Build
import Regraft.Proofs.Table
/-!
# Layers of settings

What is found in layers that are written over each other. In a table whose keys are distinct, a key is written once,
so a look-up in merged members is told by the look-ups in both (`get?_mergeMembers`). Where no two values are mappings,
members are merged by writing them over each other (`mergeMembers_eq_overlay`). Whatever holds of the values of both
tables, and goes on to values that are merged, holds in the merged members (`forall_mem_mergeMembers`).
-/
namespace Regraft

variable {base later : Table Json} {key : Text}

/-! ## Two values -/

@[simp] theorem mergeValue_none (v : Json) : mergeValue none v = v := by
  cases v <;> rfl

/-- Only mappings are merged; every other value replaces what there is. -/
theorem mergeValue_of_members?_eq_none {v : Json} (h : v.members? = none) (base : Option Json) :
    mergeValue base v = v := by
  cases v with
  | object members => cases h
  | _ => rfl

/-- A mapping replaces what is no mapping. -/
theorem mergeValue_object_of_members?_eq_none {b : Json} (h : b.members? = none) (later : Table Json) :
    mergeValue (some b) (.object later) = .object later := by
  cases b with
  | object members => cases h
  | _ => rfl

/-- A value that is written over another one stays where the two are not both mappings. -/
theorem mergeValue_eq_self {base : Option Json} {v : Json}
    (h : ∀ members later, base = some (.object members) → v ≠ .object later) : mergeValue base v = v := by
  cases v with
  | object later =>
    cases base with
    | none => exact mergeValue_none _
    | some b =>
      cases b with
      | object members => exact absurd rfl (h members later rfl)
      | _ => exact mergeValue_object_of_members?_eq_none rfl later
  | _ => exact mergeValue_of_members?_eq_none rfl base

@[simp] theorem mergeValue_object_object (members later : Table Json) :
    mergeValue (some (.object members)) (.object later) = .object (mergeMembers members later) := rfl

/-! ## Members -/

@[simp] theorem mergeMembers_nil (base : Table Json) : mergeMembers base [] = base := rfl

theorem mergeMembers_cons (base : Table Json) (e : Text × Json) (later : Table Json) :
    mergeMembers base (e :: later) =
      mergeMembers (Table.put e.1 (mergeValue (Table.get? e.1 base) e.2) base) later := rfl

theorem get?_mergeMembers (h : (later.map Prod.fst).Nodup) (base : Table Json) (key : Text) :
    Table.get? key (mergeMembers base later) =
      ((Table.get? key later).map (mergeValue (Table.get? key base))).or (Table.get? key base) := by
  induction later generalizing base with
  | nil => simp [Table.get?]
  | cons e later ih =>
    obtain ⟨k, v⟩ := e
    obtain ⟨hfirst, hrest⟩ := List.nodup_cons.mp h
    rw [mergeMembers_cons, ih hrest, Table.get?]
    by_cases hk : k = key
    · subst hk
      rw [if_pos rfl, Table.get?_eq_none_iff.mpr hfirst, Table.get?_put_self]
      rfl
    · rw [if_neg hk, Table.get?_put_of_ne (Ne.symm hk)]

/-- Members that are not merged with those that are there are written over them. -/
theorem mergeMembers_eq_overlay (h : (later.map Prod.fst).Nodup)
    (hself : ∀ e ∈ later, mergeValue (Table.get? e.1 base) e.2 = e.2) :
    mergeMembers base later = Table.overlay base later := by
  induction later generalizing base with
  | nil => rw [mergeMembers_nil]; rfl
  | cons e later ih =>
    obtain ⟨hfirst, hrest⟩ := List.nodup_cons.mp h
    rw [mergeMembers_cons, hself e List.mem_cons_self, ih hrest]
    · rfl
    · intro f hf
      have hne : f.1 ≠ e.1 := fun heq => hfirst (heq ▸ List.mem_map_of_mem hf)
      rw [Table.get?_put_of_ne hne, hself f (List.mem_cons_of_mem e hf)]

/-- The layer of the defaults. -/
def templateLayer : Table Json := (settingsTemplate.members?).getD []

/-- The entries of a layer that stand for something. -/
def present (layer : Table Json) : Table Json := layer.filter fun (_, value) => !value matches .null

theorem mergeLayers_eq (file overrides : Table Json) :
    mergeLayers file overrides = mergeMembers (mergeMembers templateLayer file) (present overrides) := rfl

end Regraft

import Regraft.Table
import Mathlib.Data.List.Nodup
/-!
# Tables without repetitions

A key that a table does not have is written behind its entries (`Table.put_of_not_mem`), so a table whose keys are
distinct is the table of its own entries (`Table.ofEntries_of_nodup`).
-/
namespace Regraft.Table

variable {κ α : Type} [DecidableEq κ] {key : κ} {table : List (κ × α)}

theorem get?_eq_none_iff : get? key table = none ↔ key ∉ table.map Prod.fst := by
  induction table with
  | nil => simp [get?]
  | cons e table ih =>
    obtain ⟨k, v⟩ := e
    rw [get?_cons]
    by_cases hk : k = key
    · simp [hk]
    · rw [if_neg hk, ih, List.map_cons, List.mem_cons]
      simp [Ne.symm hk]

theorem mem_of_get?_eq_some {value : α} (h : get? key table = some value) : (key, value) ∈ table := by
  induction table with
  | nil => cases h
  | cons e table ih =>
    obtain ⟨k, v⟩ := e
    rw [get?_cons] at h
    by_cases hk : k = key
    · rw [if_pos hk] at h
      rw [hk, Option.some.inj h]
      exact List.mem_cons_self
    · rw [if_neg hk] at h
      exact List.mem_cons_of_mem _ (ih h)

/-- Writing adds no entry but the one written. -/
theorem mem_put {value : α} {e : κ × α} (h : e ∈ put key value table) : e = (key, value) ∨ e ∈ table := by
  induction table with
  | nil => exact .inl (List.mem_singleton.mp h)
  | cons f table ih =>
    rw [put_cons] at h
    split at h
    · rename_i hf
      rcases List.mem_cons.mp h with rfl | h
      · exact .inl (by rw [hf])
      · exact .inr (List.mem_cons_of_mem _ h)
    · rcases List.mem_cons.mp h with rfl | h
      · exact .inr List.mem_cons_self
      · exact (ih h).imp id (List.mem_cons_of_mem _)

/-- A new key is written behind the others. -/
theorem put_of_not_mem (h : key ∉ table.map Prod.fst) (value : α) : put key value table = table ++ [(key, value)] := by
  induction table with
  | nil => rfl
  | cons e table ih =>
    obtain ⟨hne, hrest⟩ := not_or.mp (mt List.mem_cons.mpr h)
    obtain ⟨k, v⟩ := e
    rw [put_cons, if_neg (Ne.symm hne), ih hrest, List.cons_append]

/-- Writing keeps the keys, but for a new one. -/
theorem map_fst_put (key : κ) (value : α) (table : List (κ × α)) :
    (put key value table).map Prod.fst =
      if key ∈ table.map Prod.fst then table.map Prod.fst else table.map Prod.fst ++ [key] := by
  split
  · rename_i hmem
    induction table with
    | nil => cases hmem
    | cons e table ih =>
      obtain ⟨k, v⟩ := e
      rw [put_cons]
      by_cases hk : k = key
      · simp [hk]
      · rw [if_neg hk, List.map_cons, ih ((List.mem_cons.mp hmem).resolve_left (Ne.symm hk)), List.map_cons]
  · rename_i hnew
    rw [put_of_not_mem hnew, List.map_append, List.map_cons, List.map_nil]

theorem mem_map_fst_put {k : κ} {value : α} :
    k ∈ (put key value table).map Prod.fst ↔ k = key ∨ k ∈ table.map Prod.fst := by
  rw [map_fst_put]
  split
  · rename_i hmem
    exact ⟨.inr, fun h => h.elim (fun heq => heq ▸ hmem) id⟩
  · rw [List.mem_append, List.mem_singleton, or_comm]

theorem nodup_put (h : (table.map Prod.fst).Nodup) (key : κ) (value : α) :
    ((put key value table).map Prod.fst).Nodup := by
  rw [map_fst_put]
  split
  · exact h
  · rename_i hnew
    exact List.nodup_append.mpr ⟨h, List.nodup_singleton key, fun k hk _ hkey heq =>
      hnew (List.mem_singleton.mp hkey ▸ heq ▸ hk)⟩

/-- In a table whose keys are distinct, an entry is what its key leads to. -/
theorem get?_eq_some_of_mem (h : (table.map Prod.fst).Nodup) {value : α} (hmem : (key, value) ∈ table) :
    get? key table = some value := by
  induction table with
  | nil => cases hmem
  | cons e table ih =>
    obtain ⟨k, v⟩ := e
    obtain ⟨hfirst, hrest⟩ := List.nodup_cons.mp h
    rw [get?_cons]
    rcases List.mem_cons.mp hmem with heq | hmem
    · rw [(Prod.mk.inj heq).1, (Prod.mk.inj heq).2, if_pos rfl]
    · have hkey : key ∈ table.map Prod.fst := List.mem_map_of_mem hmem
      rw [if_neg fun heq : k = key => hfirst (heq ▸ hkey), ih hrest hmem]

/-- In a table whose keys are distinct, a key that is filtered out has no other entry. -/
theorem get?_filter (h : (table.map Prod.fst).Nodup) (p : κ × α → Bool) :
    get? key (table.filter p) = (get? key table).filter fun value => p (key, value) := by
  induction table with
  | nil => rfl
  | cons e table ih =>
    obtain ⟨k, v⟩ := e
    obtain ⟨hfirst, hrest⟩ := List.nodup_cons.mp h
    rw [List.filter_cons, get?_cons]
    by_cases hk : k = key
    · subst hk
      rw [if_pos rfl]
      cases hp : p (k, v) with
      | true => simp [get?, Option.filter, hp]
      | false => simp [ih hrest, get?_eq_none_iff.mpr hfirst, Option.filter, hp]
    · rw [if_neg hk]
      split
      · rw [get?, if_neg hk, ih hrest]
      · exact ih hrest

theorem has_iff : has key table = true ↔ key ∈ table.map Prod.fst := by
  rw [has, Option.isSome_iff_ne_none, ne_eq, get?_eq_none_iff, Decidable.not_not]

/-- Writing entries over others adds no entry but those. -/
theorem mem_overlay {base later : List (κ × α)} {e : κ × α} (h : e ∈ overlay base later) : e ∈ base ∨ e ∈ later := by
  induction later generalizing base with
  | nil => exact .inl h
  | cons f later ih =>
    rcases ih h with h | h
    · exact (mem_put h).elim (fun h => .inr (h ▸ List.mem_cons_self)) .inl
    · exact .inr (List.mem_cons_of_mem f h)

theorem mem_map_fst_overlay {base later : List (κ × α)} :
    key ∈ (overlay base later).map Prod.fst ↔ key ∈ base.map Prod.fst ∨ key ∈ later.map Prod.fst := by
  induction later generalizing base with
  | nil => simp [overlay]
  | cons f later ih =>
    rw [overlay, List.foldl_cons, ← overlay, ih, mem_map_fst_put, List.map_cons, List.mem_cons, or_comm (a := key = f.1),
      or_assoc]

/-- Entries with new and distinct keys are written as they stand. -/
theorem overlay_of_nodup {base later : List (κ × α)} (h : ((base ++ later).map Prod.fst).Nodup) :
    overlay base later = base ++ later := by
  induction later generalizing base with
  | nil => exact (List.append_nil base).symm
  | cons e later ih =>
    have hsplit : base ++ e :: later = base ++ [(e.1, e.2)] ++ later := by simp
    have hnew : e.1 ∉ base.map Prod.fst := by
      rw [List.map_append, List.nodup_append] at h
      exact fun hmem => h.2.2 _ hmem _ List.mem_cons_self rfl
    rw [hsplit] at h ⊢
    rw [← ih h, overlay, overlay, List.foldl_cons, put_of_not_mem hnew]

theorem ofEntries_of_nodup {entries : List (κ × α)} (h : (entries.map Prod.fst).Nodup) : ofEntries entries = entries :=
  overlay_of_nodup (List.nil_append entries ▸ h)

theorem nodup_overlay {base : List (κ × α)} (h : (base.map Prod.fst).Nodup) (later : List (κ × α)) :
    ((overlay base later).map Prod.fst).Nodup := by
  induction later generalizing base with
  | nil => exact h
  | cons e later ih => exact ih (nodup_put h e.1 e.2)

/-- What is written over other entries is found first. -/
theorem get?_overlay {later : List (κ × α)} (h : (later.map Prod.fst).Nodup) (base : List (κ × α)) (key : κ) :
    get? key (overlay base later) = (get? key later).or (get? key base) := by
  induction later generalizing base with
  | nil => rfl
  | cons e later ih =>
    obtain ⟨k, v⟩ := e
    obtain ⟨hfirst, hrest⟩ := List.nodup_cons.mp h
    rw [overlay, List.foldl_cons, ← overlay, ih hrest, get?]
    by_cases hk : k = key
    · subst hk
      rw [if_pos rfl, get?_put_self, get?_eq_none_iff.mpr hfirst]
      rfl
    · rw [if_neg hk, get?_put_of_ne (Ne.symm hk)]

section

variable {β : Type} (f : α → β)

theorem get?_map (key : κ) (table : List (κ × α)) :
    get? key (table.map fun e => (e.1, f e.2)) = (get? key table).map f := by
  induction table with
  | nil => rfl
  | cons e table ih =>
    rw [List.map_cons, get?, get?, ih]
    split <;> rfl

theorem map_put (key : κ) (value : α) (table : List (κ × α)) :
    (put key value table).map (fun e => (e.1, f e.2)) = put key (f value) (table.map fun e => (e.1, f e.2)) := by
  induction table with
  | nil => rfl
  | cons e table ih =>
    rw [List.map_cons, put, put]
    split
    · rfl
    · rw [List.map_cons, ih]

theorem map_overlay (base later : List (κ × α)) :
    (overlay base later).map (fun e => (e.1, f e.2)) =
      overlay (base.map fun e => (e.1, f e.2)) (later.map fun e => (e.1, f e.2)) := by
  induction later generalizing base with
  | nil => rfl
  | cons e later ih =>
    rw [overlay, List.foldl_cons, ← overlay, ih, map_put, List.map_cons, overlay, overlay, List.foldl_cons]

end

end Regraft.Table

import Regraft.Text.Basic
/-!
# Tables

A table maps keys, for the most part texts, to values and remembers the order in which its keys came in.
Writing a key again changes its value in place: the table holds each key once, at its first position.
-/
namespace Regraft

/-- Values under text keys, in the order in which the keys were first written. -/
abbrev Table (α : Type) := List (Text × α)

namespace Table

variable {κ α : Type} [DecidableEq κ]

/-- The value under a key. -/
def get? (key : κ) : List (κ × α) → Option α
  | [] => none
  | (k, v) :: rest => if k = key then some v else get? key rest

/-- The table with a value written under a key. -/
def put (key : κ) (value : α) : List (κ × α) → List (κ × α)
  | [] => [(key, value)]
  | (k, v) :: rest => if k = key then (k, value) :: rest else (k, v) :: put key value rest

theorem get?_cons (key k : κ) (v : α) (rest : List (κ × α)) :
    get? key ((k, v) :: rest) = if k = key then some v else get? key rest := rfl

theorem put_cons (key k : κ) (value v : α) (rest : List (κ × α)) :
    put key value ((k, v) :: rest) = if k = key then (k, value) :: rest else (k, v) :: put key value rest := rfl

/-- A key has a value. -/
def has (key : κ) (table : List (κ × α)) : Bool := (get? key table).isSome

/-- All entries of `later` written over `base`, in their order. -/
def overlay (base later : List (κ × α)) : List (κ × α) :=
  later.foldl (fun t entry => put entry.1 entry.2 t) base

/-- A table of entries; a later entry of a key wins. -/
def ofEntries (entries : List (κ × α)) : List (κ × α) := overlay [] entries

/-- The keys, in order. -/
def keys (table : List (κ × α)) : List κ := table.map Prod.fst

@[simp] theorem get?_put_self (key : κ) (value : α) (t : List (κ × α)) :
    get? key (put key value t) = some value := by
  induction t with
  | nil => exact if_pos rfl
  | cons e rest ih =>
    rw [put_cons]
    by_cases h : e.1 = key
    · rw [if_pos h, get?_cons, if_pos h]
    · rw [if_neg h, get?_cons, if_neg h, ih]

theorem get?_put_of_ne {key other : κ} (h : other ≠ key) (value : α) (t : List (κ × α)) :
    get? other (put key value t) = get? other t := by
  induction t with
  | nil => exact if_neg (Ne.symm h)
  | cons e rest ih =>
    rw [put_cons]
    by_cases hk : e.1 = key
    · rw [if_pos hk, get?_cons, get?_cons, hk, if_neg (Ne.symm h), if_neg (Ne.symm h)]
    · rw [if_neg hk, get?_cons, get?_cons, ih]

end Table

end Regraft

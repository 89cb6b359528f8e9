import Mathlib.Data.List.Forall2
/-!
# Computations that may fail

How a row of computations succeeds or fails, said of its members.
-/
namespace Regraft

variable {ε ε' α β : Type}

theorem eq_ok_of_toOption {x : Except ε α} {a : α} (h : x.toOption = some a) : x = .ok a := by
  cases x with
  | error e => cases h
  | ok b => exact congrArg Except.ok (Option.some.inj h)

/-- A row of two computations succeeds where both do. -/
theorem bind_eq_ok {x : Except ε α} {next : α → Except ε β} {b : β} :
    x >>= next = .ok b ↔ ∃ a, x = .ok a ∧ next a = .ok b := by
  cases x <;> simp [bind, Except.bind]

/-- A row of two computations fails where the first fails, or where the second does. -/
theorem bind_eq_error {x : Except ε α} {next : α → Except ε β} {e : ε} :
    x >>= next = .error e ↔ x = .error e ∨ ∃ a, x = .ok a ∧ next a = .error e := by
  cases x <;> simp [bind, Except.bind]

theorem map_eq_ok {x : Except ε α} {f : α → β} {b : β} : x.map f = .ok b ↔ ∃ a, x = .ok a ∧ f a = b := by
  cases x <;> simp [Except.map]

theorem mapError_eq_ok {x : Except ε α} {wrap : ε → ε'} {a : α} : x.mapError wrap = .ok a ↔ x = .ok a := by
  cases x <;> simp [Except.mapError]

theorem mapError_eq_error {x : Except ε α} {wrap : ε → ε'} {e : ε'} :
    x.mapError wrap = .error e ↔ ∃ e', x = .error e' ∧ wrap e' = e := by
  cases x <;> simp [Except.mapError]

/-- The results of attempts that all succeed. -/
theorem forall₂_of_mapM {f : α → Except ε β} {as : List α} :
    ∀ {bs : List β}, as.mapM f = .ok bs → List.Forall₂ (fun a b => f a = .ok b) as bs := by
  induction as with
  | nil =>
    intro bs h
    obtain rfl := Except.ok.inj h
    exact .nil
  | cons a as ih =>
    intro bs h
    rw [List.mapM_cons, bind_eq_ok] at h
    obtain ⟨b, ha, h⟩ := h
    rw [bind_eq_ok] at h
    obtain ⟨rest, has, h⟩ := h
    obtain rfl := Except.ok.inj h
    exact .cons ha (ih has)

/-- Every result is that of an attempt. -/
theorem exists_of_mem_mapM {f : α → Except ε β} {as : List α} {bs : List β} (h : as.mapM f = .ok bs) {b : β}
    (hb : b ∈ bs) : ∃ a ∈ as, f a = .ok b := by
  replace h := forall₂_of_mapM h
  induction h with
  | nil => cases hb
  | @cons a _ as _ ha _ ih =>
    rcases List.mem_cons.mp hb with rfl | hb
    · exact ⟨a, List.mem_cons_self, ha⟩
    · obtain ⟨c, hc, hfb⟩ := ih hb
      exact ⟨c, List.mem_cons_of_mem a hc, hfb⟩

/-- Attempts fail where one of them does. -/
theorem exists_of_mapM_eq_error {f : α → Except ε β} {as : List α} {e : ε} (h : as.mapM f = .error e) :
    ∃ a ∈ as, f a = .error e := by
  induction as with
  | nil => cases h
  | cons a as ih =>
    rw [List.mapM_cons, bind_eq_error] at h
    rcases h with h | ⟨b, -, h⟩
    · exact ⟨a, List.mem_cons_self, h⟩
    · rw [bind_eq_error] at h
      rcases h with h | ⟨bs, -, h⟩
      · obtain ⟨c, hc, hfails⟩ := ih h
        exact ⟨c, List.mem_cons_of_mem a hc, hfails⟩
      · cases h

/-- Attempts that all succeed give their results in a row. -/
theorem mapM_eq_ok {f : α → Except ε β} {g : α → β} {as : List α} (h : ∀ a ∈ as, f a = .ok (g a)) :
    as.mapM f = .ok (as.map g) := by
  induction as with
  | nil => rfl
  | cons a as ih =>
    rw [List.mapM_cons, h a List.mem_cons_self, ih fun b hb => h b (List.mem_cons_of_mem _ hb)]
    rfl

/-- Attempts each of which succeeds all succeed together. -/
theorem exists_mapM_eq_ok {f : α → Except ε β} {as : List α} (h : ∀ a ∈ as, ∃ b, f a = .ok b) :
    ∃ bs, as.mapM f = .ok bs := by
  cases hrow : as.mapM f with
  | ok bs => exact ⟨bs, rfl⟩
  | error e =>
    obtain ⟨a, ha, hfails⟩ := exists_of_mapM_eq_error hrow
    obtain ⟨b, hb⟩ := h a ha
    cases hfails.symm.trans hb

/-- In a row that succeeds, every attempt gives one of the results. -/
theorem exists_result_of_mem {f : α → Except ε β} {as : List α} {bs : List β} (h : as.mapM f = .ok bs) {a : α}
    (ha : a ∈ as) : ∃ b ∈ bs, f a = .ok b := by
  replace h := forall₂_of_mapM h
  induction h with
  | nil => cases ha
  | @cons c d _ bs hcd _ ih =>
    rcases List.mem_cons.mp ha with rfl | ha
    · exact ⟨d, List.mem_cons_self, hcd⟩
    · obtain ⟨b, hb, hfa⟩ := ih ha
      exact ⟨b, List.mem_cons_of_mem d hb, hfa⟩

theorem mem_mapM_iff {f : α → Except ε β} {as : List α} {bs : List β} (h : as.mapM f = .ok bs) {b : β} :
    b ∈ bs ↔ ∃ a ∈ as, f a = .ok b := by
  refine ⟨exists_of_mem_mapM h, fun ⟨a, ha, hfa⟩ => ?_⟩
  obtain ⟨c, hc, hother⟩ := exists_result_of_mem h ha
  exact Except.ok.inj (hother.symm.trans hfa) ▸ hc

/-- Attempts that go as those of a row that succeeds, and the other way round, give the results of that row, up to a
change. -/
theorem mapM_agreeing {γ δ : Type} {f : α → Except ε β} {g : γ → Except ε δ} (change : β → δ) {as : List α}
    {cs : List γ} {bs : List β} (h : as.mapM f = .ok bs)
    (hforth : ∀ a ∈ as, ∃ c ∈ cs, ∀ b, f a = .ok b → g c = .ok (change b))
    (hback : ∀ c ∈ cs, ∃ a ∈ as, ∀ b, f a = .ok b → g c = .ok (change b)) :
    ∃ ds, cs.mapM g = .ok ds ∧ ∀ d, d ∈ ds ↔ ∃ b ∈ bs, change b = d := by
  have hdone : ∀ c ∈ cs, ∃ b ∈ bs, g c = .ok (change b) := by
    intro c hc
    obtain ⟨a, ha, hagree⟩ := hback c hc
    obtain ⟨b, hb, hfa⟩ := exists_result_of_mem h ha
    exact ⟨b, hb, hagree b hfa⟩
  obtain ⟨ds, hds⟩ := exists_mapM_eq_ok fun c hc => (hdone c hc).imp' change fun _ hb => hb.2
  refine ⟨ds, hds, fun d => ⟨fun hd => ?_, ?_⟩⟩
  · obtain ⟨c, hc, hgc⟩ := exists_of_mem_mapM hds hd
    obtain ⟨b, hb, hchange⟩ := hdone c hc
    exact ⟨b, hb, Except.ok.inj (hchange.symm.trans hgc)⟩
  · rintro ⟨b, hb, rfl⟩
    obtain ⟨a, ha, hfa⟩ := exists_of_mem_mapM h hb
    obtain ⟨c, hc, hagree⟩ := hforth a ha
    obtain ⟨d, hd, hgc⟩ := exists_result_of_mem hds hc
    exact Except.ok.inj (hgc.symm.trans (hagree b hfa)) ▸ hd

/-- What goes through a row of steps goes through those before the last one, and then through the last one. -/
theorem foldlM_concat_eq_ok {f : β → α → Except ε β} {xs : List α} {x : α} {b c : β}
    (h : (xs ++ [x]).foldlM f b = .ok c) : ∃ a, xs.foldlM f b = .ok a ∧ f a x = .ok c := by
  rw [List.foldlM_append, bind_eq_ok] at h
  obtain ⟨a, ha, h⟩ := h
  rw [List.foldlM_cons, bind_eq_ok] at h
  obtain ⟨d, hd, h⟩ := h
  obtain rfl := Except.ok.inj h
  exact ⟨a, ha, hd⟩

end Regraft

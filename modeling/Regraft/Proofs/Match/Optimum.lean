import Regraft.Proofs.Match.Layer
import Mathlib.Algebra.Order.Ring.Rat
import Mathlib.Data.List.Lex
import Mathlib.Data.Prod.Lex
import Mathlib.Tactic.Linarith
/-!
# The best placement

On exact numbers the search is an exhaustive one. Placements are compared by `Matching.AtLeast`: the higher
total score, then the smaller total distance, then the smaller last place, then the smaller place before it,
and so on. This is a linear order on ranks, which grow in step with chains (`kept_rank`), so the best chain
of a layer continues to the best chain of the next one.

* `atLeast_of_place`: the placement that is found is at least as good as every other one;
* `place_optimal`: besides, a version is placed exactly when it has a feasible placement, and the record that
  is reported otherwise is the first one that no placement reaches.
-/
namespace Regraft

/-! ## Ranks -/

/-- What placements are compared by; the smallest rank is the best. -/
abbrev Rank := ℚᵒᵈ ×ₗ ℚ ×ₗ List Nat

namespace Matching

variable (m : Matching ℚ) (lines : List Text)

/-- The total score of a placement. -/
def totalScore (placed : List (Nat × Record)) : ℚ :=
  (placed.map fun x => (m.score lines x.1 x.2).getD 0).sum

/-- The total distance of a placement from the recorded anchors. -/
def totalDrift (placed : List (Nat × Record)) : ℚ := (placed.map fun x => drift x.1 x.2).sum

/-- One placement is at least as good as another one. -/
def AtLeast (a b : List (Nat × Record)) : Prop :=
  m.totalScore lines b < m.totalScore lines a ∨ m.totalScore lines b = m.totalScore lines a ∧
    (totalDrift a < totalDrift b ∨ totalDrift a = totalDrift b ∧
      (a.map Prod.fst).reverse ≤ (b.map Prod.fst).reverse)

/-- The rank of a placement. -/
def rank (placed : List (Nat × Record)) : Rank :=
  toLex (OrderDual.toDual (m.totalScore lines placed),
    toLex (totalDrift placed, (placed.map Prod.fst).reverse))

theorem rank_le_iff {a b : List (Nat × Record)} :
    m.rank lines a ≤ m.rank lines b ↔ m.AtLeast lines a b := by
  simp only [rank, AtLeast, Prod.Lex.toLex_le_toLex, OrderDual.toDual_lt_toDual,
    OrderDual.toDual_inj, eq_comm]

end Matching

/-- The rank of a chain. -/
def Chain.rank (c : Chain ℚ) : Rank :=
  toLex (OrderDual.toDual c.score,
    toLex (c.distance, c.last.position :: c.before.map (·.position)))

/-! ## The best of a layer -/

/-- A chain that beats another one has the smaller rank. -/
theorem rank_lt_of_beats {a b : Chain ℚ} (h : a.beats b = true) : a.rank < b.rank := by
  simp only [Chain.beats, Scale.same, beq_iff_eq] at h
  simp only [Chain.rank, Prod.Lex.toLex_lt_toLex, OrderDual.toDual_lt_toDual, OrderDual.toDual_inj]
  split at h
  · rename_i he
    exact .inr ⟨he, .inl (by simpa using h)⟩
  · exact .inl (by simpa using h)

/-- Of two chains that do not beat each other, the one that ends earlier has the smaller rank. -/
theorem rank_le_of_not_beats {a b : Chain ℚ} (h : ¬ a.beats b = true)
    (hp : b.last.position < a.last.position) : b.rank ≤ a.rank := by
  simp only [Chain.beats, Scale.same, beq_iff_eq] at h
  simp only [Chain.rank, Prod.Lex.toLex_le_toLex, OrderDual.toDual_lt_toDual, OrderDual.toDual_inj]
  split at h
  · rename_i he
    refine .inr ⟨he.symm, ?_⟩
    rcases (not_lt.mp (by simpa using h)).lt_or_eq with hd | hd
    · exact .inl hd
    · exact .inr ⟨hd, (List.Lex.rel hp : _ < _).le⟩
  · rename_i he
    exact .inl (lt_of_le_of_ne (not_lt.mp (by simpa using h)) he)

theorem foldl_better_rank {chains : List (Chain ℚ)} {b x : Chain ℚ}
    (h : (b :: chains).Pairwise fun a b => a.last.position < b.last.position)
    (hx : chains.foldl Chain.better (some b) = some x) : ∀ y ∈ b :: chains, x.rank ≤ y.rank := by
  induction chains generalizing b with
  | nil =>
    obtain rfl : b = x := by simpa using hx
    simp
  | cons c rest ih =>
    obtain ⟨hb, hrest⟩ := List.pairwise_cons.mp h
    obtain ⟨hc, hrest'⟩ := List.pairwise_cons.mp hrest
    simp only [List.foldl_cons, Chain.better] at hx
    split at hx
    · rename_i hbeats
      have hmin := ih hrest hx
      intro y hy
      rcases List.mem_cons.mp hy with rfl | hy
      · exact (hmin c List.mem_cons_self).trans (rank_lt_of_beats hbeats).le
      · exact hmin y hy
    · rename_i hbeats
      have hmin := ih (List.pairwise_cons.mpr ⟨fun y hy => hb y (List.mem_cons_of_mem _ hy), hrest'⟩) hx
      intro y hy
      rcases List.mem_cons.mp hy with rfl | hy
      · exact hmin y List.mem_cons_self
      rcases List.mem_cons.mp hy with rfl | hy
      · exact (hmin b List.mem_cons_self).trans
          (rank_le_of_not_beats hbeats (hb y List.mem_cons_self))
      · exact hmin y (List.mem_cons_of_mem _ hy)

/-- The first of the best chains of a layer has the smallest rank. -/
theorem best?_rank {chains : List (Chain ℚ)} {b c : Chain ℚ}
    (h : chains.Pairwise fun a b => a.last.position < b.last.position)
    (hb : Chain.best? chains = some b) (hc : c ∈ chains) : b.rank ≤ c.rank := by
  cases chains with
  | nil => cases hc
  | cons a rest => exact foldl_better_rank h hb c hc

/-! ## Ranks along a chain -/

namespace Matching

variable {m : Matching ℚ} {lines : List Text}

theorem rank_single {r : Record} {p : Nat} {x : Candidate ℚ} (hx : m.candidate? lines r p = some x) :
    (Chain.single x).rank = m.rank lines [(p, r)] := by
  obtain ⟨-, rfl, hd, hs⟩ := candidate?_eq_some.mp hx
  simp [Chain.rank, Chain.single, rank, totalScore, totalDrift, hs, hd]

/-- One more record changes the ranks of a chain and of a placement in the same way. -/
theorem rank_extend {c : Chain ℚ} {placed : List (Nat × Record)} {r : Record} {p : Nat}
    {x : Candidate ℚ} (hx : m.candidate? lines r p = some x) :
    (c.extend x).rank ≤ m.rank lines (placed ++ [(p, r)]) ↔ c.rank ≤ m.rank lines placed := by
  obtain ⟨-, rfl, hd, hs⟩ := candidate?_eq_some.mp hx
  simp only [Chain.rank, Chain.extend, rank, totalScore, totalDrift, List.map_append, List.map_cons,
    List.map_nil, List.sum_append, List.sum_cons, List.sum_nil, hs, Option.getD_some, ← hd, add_zero,
    List.reverse_append, List.reverse_cons, List.reverse_nil, List.nil_append, List.singleton_append,
    Prod.Lex.toLex_le_toLex, OrderDual.toDual_lt_toDual, OrderDual.toDual_inj]
  have hadd : ∀ a b c : ℚ, a + c < b + c ↔ a < b := fun a b c => add_lt_add_iff_right c
  have heq : ∀ a b c : ℚ, a + c = b + c ↔ a = b := fun a b c => add_left_inj c
  have hcons : ∀ (p : Nat) (l l' : List Nat), p :: l ≤ p :: l' ↔ l ≤ l' := by
    intro p l l'
    rw [← not_lt, ← not_lt (a := l'), List.cons_lt_cons_self]
  simp only [hadd, heq, hcons]

/-- The search keeps the best rank. -/
theorem kept_rank (m : Matching ℚ) (lines : List Text) : m.Kept lines fun c placed => c.rank ≤ m.rank lines placed where
  single hx := (rank_single hx).le
  extend h hx := (rank_extend hx).mpr h
  best hch hb hc h := (best?_rank hch hb hc).trans h

theorem rank_of_traces {placed : List (Nat × Record)} {c : Chain ℚ} (h : m.Traces lines placed c) :
    c.rank = m.rank lines placed := by
  induction h with
  | single hx => exact rank_single hx
  | @extend placed c r p x hc hx ih =>
    obtain ⟨-, rfl, hd, hs⟩ := candidate?_eq_some.mp hx
    simp only [Chain.rank, rank, EmbeddingLike.apply_eq_iff_eq, Prod.mk.injEq] at ih
    obtain ⟨hscore, hdrift, hplaces⟩ := ih
    simp [Chain.rank, Chain.extend, rank, totalScore, totalDrift, hs, ← hd, hscore, hdrift, hplaces]

/-- The placement that is found is at least as good as any other one. -/
theorem atLeast_of_place {v : Version} {pv : PlacedVersion ℚ} (h : m.place lines v = .ok pv)
    {rival : List (Nat × Record)} (hr : m.Feasible lines v.records rival) :
    m.AtLeast lines pv.places rival := by
  have hc := place_chosen (kept_rank m lines) v
  rw [h] at hc
  cases rival with
  | nil =>
    have hnil : v.records = [] := by simpa using hr.records.symm
    have hpv : pv.places = [] := by
      have := hc.feasible.records
      simpa [hnil] using this
    rw [hpv]
    exact (rank_le_iff m lines).mp le_rfl
  | cons x rest =>
    obtain ⟨c, ht, hle⟩ := hc.preferred (x :: rest) hr (List.cons_ne_nil _ _)
    rw [rank_of_traces ht] at hle
    exact (rank_le_iff m lines).mp hle

/-! ## The search as a whole -/

/-- The first record of some records that no placement reaches. -/
def FirstUnplaceable (m : Matching ℚ) (lines : List Text) (rs : List Record) (r : Record) : Prop :=
  ∃ k, rs[k]? = some r ∧ (∀ j ≤ k, ∃ placed, m.Feasible lines (rs.take j) placed) ∧
    ¬ ∃ placed, m.Feasible lines (rs.take (k + 1)) placed

theorem firstUnplaceable_of_stuck {rs : List Record} {r : Record} (h : Stuck m lines rs r) :
    FirstUnplaceable m lines rs r := by
  obtain ⟨before, after, rfl, ⟨placed, hf⟩, hno⟩ := h
  refine ⟨before.length, by simp, ?_, ?_⟩
  · intro j hj
    refine ⟨placed.take j, ?_⟩
    rw [List.take_append_of_le_length hj]
    exact hf.take j
  · rwa [List.append_cons, List.take_left' (by simp)]

/-- Placing a version fails exactly when it has no feasible placement, and then reports the first record
that none reaches; otherwise it finds the best placement. -/
theorem place_optimal (m : Matching ℚ) (lines : List Text) (v : Version) :
    ((∃ u, m.place lines v = .error u) ↔ ¬ ∃ placed, m.Feasible lines v.records placed) ∧
    (∀ u, m.place lines v = .error u → FirstUnplaceable m lines v.records u.record) ∧
    (∀ pv, m.place lines v = .ok pv →
      pv.version = v ∧ m.Feasible lines v.records pv.places ∧
        (∀ p ∈ pv.placed, m.score lines p.position p.record = some p.score ∧
          p.distance = drift p.position p.record) ∧
        ∀ rival, m.Feasible lines v.records rival → m.AtLeast lines pv.places rival) := by
  refine ⟨⟨?_, ?_⟩, ?_, ?_⟩
  · rintro ⟨u, hu⟩ ⟨placed, hf⟩
    obtain ⟨pv, hpv⟩ := exists_place hf
    rw [hu] at hpv
    cases hpv
  · intro hno
    cases h : m.place lines v with
    | error u => exact ⟨u, rfl⟩
    | ok pv => exact absurd ⟨_, (place_feasible h).2⟩ hno
  · intro u hu
    exact firstUnplaceable_of_stuck (place_stuck hu)
  · intro pv hpv
    obtain ⟨hv, hf⟩ := place_feasible hpv
    have hc := place_chosen (kept_trivial m lines) v
    rw [hpv] at hc
    refine ⟨hv, hf, ?_, fun rival hr => atLeast_of_place hpv hr⟩
    intro p hp
    obtain ⟨-, -, hd, hs⟩ := candidate?_eq_some.mp (hc.scored p hp)
    exact ⟨hs, hd⟩

end Matching

end Regraft

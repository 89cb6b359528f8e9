import Regraft.Match.Placement
import Mathlib.Data.List.Chain
/-!
# Feasible placements

A placement of records lists them with their places. It is feasible when every place suits its record and
the records keep their order without overlap (`Matching.Feasible`). `continueChains` walks over two sorted
lists at once; `continueChains_eq` says what it computes without the walk: every candidate continues the
first best of all chains that end early enough.
-/
namespace Regraft

/-- Records with their places, each behind the stock lines that the one before it takes out. -/
def Apart (placed : List (Nat × Record)) : Prop :=
  placed.IsChain fun a b => a.1 + a.2.extent ≤ b.1

section
variable {α : Type} [Scale α]

namespace Matching

variable (m : Matching α) (lines : List Text)

/-- A place suits a record: it is near enough to the anchor, the stock that the record takes out stands
there, and enough of the context agrees. -/
structure Suits (r : Record) (position : Nat) : Prop where
  near : m.allows (drift position r) = true
  agrees : ∃ s, m.score lines position r = some s ∧ m.qualifies s = true

/-- A placement that a match may choose. -/
structure Feasible (rs : List Record) (placed : List (Nat × Record)) : Prop where
  records : placed.map Prod.snd = rs
  suits : ∀ x ∈ placed, m.Suits lines x.2 x.1
  apart : Apart placed

variable {m lines}

/-! ## Places and candidates -/

theorem candidate?_eq_some {r : Record} {p : Nat} {c : Candidate α} :
    m.candidate? lines r p = some c ↔
      m.allows (drift p r) = true ∧ c.position = p ∧ c.distance = drift p r ∧
        m.score lines p r = some c.score := by
  simp only [candidate?]
  split
  · rename_i h
    simp only [Option.map_eq_some_iff, h, true_and]
    constructor
    · intro hx
      obtain ⟨s, hs, rfl⟩ := hx
      exact ⟨rfl, rfl, hs⟩
    · intro hx
      obtain ⟨rfl, hd, hs⟩ := hx
      exact ⟨c.score, hs, by rw [← hd]⟩
  · rename_i h
    simp [h]

theorem suits_iff {r : Record} {p : Nat} :
    m.Suits lines r p ↔ ∃ c, m.candidate? lines r p = some c ∧ m.qualifies c.score = true := by
  constructor
  · intro h
    obtain ⟨hn, s, hs, hq⟩ := h
    exact ⟨⟨p, s, drift p r⟩, (candidate?_eq_some ..).mpr ⟨hn, rfl, rfl, hs⟩, hq⟩
  · intro h
    obtain ⟨c, hc, hq⟩ := h
    obtain ⟨hn, -, -, hs⟩ := (candidate?_eq_some ..).mp hc
    exact ⟨hn, c.score, hs, hq⟩

/-- A place with a score is a place of the file, and what the record takes out stands there. -/
theorem score_eq_some {r : Record} {p : Nat} {s : α} (h : m.score lines p r = some s) :
    p ≤ lines.length ∧ extentFits lines p r = true := by
  simp only [score] at h
  split at h
  · cases h
  · rename_i hc
    simp only [Bool.or_eq_true, decide_eq_true_eq, Bool.not_eq_true', not_or, Nat.not_lt,
      Bool.not_eq_false] at hc
    exact hc

theorem mem_qualifying {r : Record} {c : Candidate α} :
    c ∈ m.qualifying lines r ↔
      m.candidate? lines r c.position = some c ∧ m.qualifies c.score = true := by
  simp only [qualifying, candidatesInOrder, List.mem_filter, List.mem_filterMap, List.mem_range]
  refine and_congr_left fun _ => ⟨?_, ?_⟩
  · intro h
    obtain ⟨p, -, hc⟩ := h
    rwa [((candidate?_eq_some ..).mp hc).2.1]
  · intro hc
    obtain ⟨-, -, -, hs⟩ := (candidate?_eq_some ..).mp hc
    exact ⟨c.position, Nat.lt_succ_of_le (score_eq_some hs).1, hc⟩

theorem suits_of_mem_qualifying {r : Record} {c : Candidate α} (h : c ∈ m.qualifying lines r) :
    m.Suits lines r c.position :=
  (suits_iff ..).mpr ⟨c, mem_qualifying.mp h⟩

theorem exists_mem_qualifying {r : Record} {p : Nat} (h : m.Suits lines r p) :
    ∃ c ∈ m.qualifying lines r, c.position = p := by
  obtain ⟨c, hc, hq⟩ := (suits_iff ..).mp h
  have hp := ((candidate?_eq_some ..).mp hc).2.1
  exact ⟨c, mem_qualifying.mpr ⟨by rwa [hp], hq⟩, hp⟩

/-- The candidates of a record go up in the file. -/
theorem qualifying_ascending (r : Record) :
    (m.qualifying lines r).Pairwise fun a b => a.position < b.position := by
  refine List.Pairwise.filter _ (List.pairwise_filterMap.mpr ?_)
  refine List.pairwise_lt_range.imp fun {p q} hpq a ha b hb => ?_
  rw [((candidate?_eq_some ..).mp ha).2.1, ((candidate?_eq_some ..).mp hb).2.1]
  exact hpq

/-! ## Placements -/

theorem feasible_nil : m.Feasible lines [] [] := ⟨rfl, by simp, List.isChain_nil⟩

theorem feasible_singleton {r : Record} {p : Nat} (h : m.Suits lines r p) :
    m.Feasible lines [r] [(p, r)] :=
  ⟨rfl, by simpa using h, List.isChain_singleton _⟩

/-- A placement of one more record is a placement of the others that ends early enough, and a place that
suits the record. -/
theorem feasible_concat {rs : List Record} {r : Record} {placed : List (Nat × Record)} {p : Nat} :
    m.Feasible lines (rs ++ [r]) (placed ++ [(p, r)]) ↔
      m.Feasible lines rs placed ∧ m.Suits lines r p ∧
        ∀ x ∈ placed.getLast?, x.1 + x.2.extent ≤ p := by
  constructor
  · intro h
    obtain ⟨hr, hs, ha⟩ := h
    obtain ⟨ha, -, hl⟩ := List.isChain_append.mp ha
    refine ⟨⟨?_, fun x hx => hs x (by simp [hx]), ha⟩, hs (p, r) (by simp), ?_⟩
    · simpa using hr
    · intro x hx
      exact hl x hx (p, r) (by simp)
  · intro h
    obtain ⟨⟨hr, hs, ha⟩, hp, hl⟩ := h
    refine ⟨by simp [hr], ?_, ?_⟩
    · intro x hx
      rcases List.mem_append.mp hx with hx | hx
      · exact hs x hx
      · obtain rfl := List.mem_singleton.mp hx
        exact hp
    · refine List.isChain_append.mpr ⟨ha, List.isChain_singleton _, ?_⟩
      intro x hx y hy
      obtain rfl : y = (p, r) := by simpa using hy.symm
      exact hl x hx

/-- The last record of a placement can be taken off. -/
theorem exists_of_feasible_concat {rs : List Record} {r : Record} {placed : List (Nat × Record)}
    (h : m.Feasible lines (rs ++ [r]) placed) : ∃ before p, placed = before ++ [(p, r)] := by
  rcases List.eq_nil_or_concat placed with rfl | ⟨before, x, rfl⟩
  · simpa using h.records
  · have hr := h.records
    simp only [List.concat_eq_append, List.map_append, List.map_cons, List.map_nil] at hr
    have hx := (List.append_inj' hr rfl).2
    exact ⟨before, x.1, by simp_all [Prod.ext_iff]⟩

/-- The first records of a placement are placed by it. -/
theorem Feasible.take {rs : List Record} {placed : List (Nat × Record)} (h : m.Feasible lines rs placed)
    (k : Nat) : m.Feasible lines (rs.take k) (placed.take k) :=
  ⟨by rw [List.map_take, h.records], fun x hx => h.suits x (List.mem_of_mem_take hx), h.apart.take k⟩

end Matching

/-! ## The walk over chains and candidates -/

/-- A chain ends early enough for a candidate. -/
def Chain.fits (extent : Nat) (c : Candidate α) (chain : Chain α) : Bool :=
  chain.last.position + extent ≤ c.position

omit [Scale α] in
/-- Where only later elements fail, the first ones that pass are all that pass. -/
theorem takeWhile_eq_filter {p : Chain α → Bool} {chains : List (Chain α)}
    (h : chains.Pairwise fun a b => p b = true → p a = true) : chains.takeWhile p = chains.filter p := by
  induction chains with
  | nil => rfl
  | cons a rest ih =>
    obtain ⟨ha, hr⟩ := List.pairwise_cons.mp h
    by_cases hp : p a = true
    · simp [hp, ih hr]
    · have hnone : ∀ b ∈ rest, ¬ p b = true := fun b hb hpb => hp (ha b hb hpb)
      simp [hp, List.filter_eq_nil_iff.mpr hnone]

/-- One candidate of the walk. -/
theorem continueChains_cons (extent : Nat) (best : Option (Chain α)) (chains : List (Chain α))
    (c : Candidate α) (cs : List (Candidate α)) :
    continueChains extent best chains (c :: cs) =
      let passed := (chains.takeWhile (Chain.fits extent c)).foldl Chain.better best
      (passed.map (·.extend c)).toList ++
        continueChains extent passed (chains.dropWhile (Chain.fits extent c)) cs := by
  have hfits : (fun chain : Chain α => decide (chain.last.position + extent ≤ c.position)) =
      Chain.fits extent c := rfl
  simp only [continueChains, hfits]
  cases (chains.takeWhile (Chain.fits extent c)).foldl Chain.better best <;> rfl

/-- Chains that fit a candidate fit every later one, so the walk never goes back: it keeps the best of
those it has passed. -/
theorem continueChains_walk (extent : Nat) (cs : List (Candidate α)) :
    ∀ (best : Option (Chain α)) (chains : List (Chain α)),
      chains.Pairwise (fun a b => a.last.position < b.last.position) →
      cs.Pairwise (fun a b => a.position < b.position) →
      continueChains extent best chains cs =
        cs.filterMap fun c =>
          ((chains.filter (Chain.fits extent c)).foldl Chain.better best).map (·.extend c) := by
  induction cs with
  | nil => intros; rfl
  | cons c cs ih =>
    intro best chains hch hcs
    obtain ⟨hc, hcs⟩ := List.pairwise_cons.mp hcs
    have htake : chains.takeWhile (Chain.fits extent c) = chains.filter (Chain.fits extent c) := by
      refine takeWhile_eq_filter (hch.imp fun {a b} hab hb => ?_)
      simp only [Chain.fits, decide_eq_true_eq] at hb ⊢
      omega
    have hlater : ∀ d ∈ cs, chains.filter (Chain.fits extent d) =
        chains.takeWhile (Chain.fits extent c) ++
          (chains.dropWhile (Chain.fits extent c)).filter (Chain.fits extent d) := by
      intro d hd
      have hpassed : (chains.takeWhile (Chain.fits extent c)).filter (Chain.fits extent d) =
          chains.takeWhile (Chain.fits extent c) := by
        refine List.filter_eq_self.mpr fun a ha => ?_
        have hac := (List.mem_filter.mp (htake ▸ ha)).2
        have hcd := hc d hd
        simp only [Chain.fits, decide_eq_true_eq] at hac ⊢
        omega
      rw [← hpassed, ← List.filter_append, List.takeWhile_append_dropWhile]
    rw [continueChains_cons]
    simp only [ih _ _ (hch.sublist (List.dropWhile_sublist _)) hcs, htake, List.filterMap_cons]
    have hrest : cs.filterMap (fun d =>
        (((chains.dropWhile (Chain.fits extent c)).filter (Chain.fits extent d)).foldl Chain.better
          ((chains.filter (Chain.fits extent c)).foldl Chain.better best)).map (·.extend d)) =
        cs.filterMap fun d =>
          ((chains.filter (Chain.fits extent d)).foldl Chain.better best).map (·.extend d) := by
      refine List.filterMap_congr fun d hd => ?_
      rw [hlater d hd, List.foldl_append, htake]
    simp only [hrest]
    cases (chains.filter (Chain.fits extent c)).foldl Chain.better best <;> rfl

/-- Every candidate continues the first best of the chains that end early enough for it. -/
theorem continueChains_eq {extent : Nat} {chains : List (Chain α)} {cs : List (Candidate α)}
    (hch : chains.Pairwise fun a b => a.last.position < b.last.position)
    (hcs : cs.Pairwise fun a b => a.position < b.position) :
    continueChains extent none chains cs = cs.filterMap fun c =>
      (Chain.best? (chains.filter (Chain.fits extent c))).map (·.extend c) :=
  continueChains_walk extent cs none chains hch hcs

end

end Regraft

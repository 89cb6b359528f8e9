import Regraft.Proofs.Match.Feasible
/-!
# Layers of chains

After some records of a version, the search holds a layer of chains: at most one for each place of the last
record, going up in the file. `Layer` is what every layer satisfies, whatever `Prefers` says about a chain
and a rival placement; `Layer.next` is the step to one more record and `chains_layer` the whole run. From it
follow, for numbers of any kind:

* `place_feasible`: a version that is placed has a feasible placement;
* `place_stuck`: the record that is reported is the first one that no placement reaches.
-/
namespace Regraft

section
variable {α : Type} [Scale α]

namespace Matching

variable (m : Matching α) (lines : List Text)

/-- A chain goes through the places of a placement. -/
inductive Traces : List (Nat × Record) → Chain α → Prop
  | single {r : Record} {p : Nat} {x : Candidate α} (hx : m.candidate? lines r p = some x) :
      Traces [(p, r)] (Chain.single x)
  | extend {placed : List (Nat × Record)} {c : Chain α} {r : Record} {p : Nat} {x : Candidate α}
      (hc : Traces placed c) (hx : m.candidate? lines r p = some x) :
      Traces (placed ++ [(p, r)]) (c.extend x)

/-- A relation between chains and rival placements that the search keeps. -/
structure Kept (Prefers : Chain α → List (Nat × Record) → Prop) : Prop where
  single : ∀ {r p x}, m.candidate? lines r p = some x → Prefers (Chain.single x) [(p, r)]
  extend : ∀ {c placed r p x}, Prefers c placed → m.candidate? lines r p = some x →
    Prefers (c.extend x) (placed ++ [(p, r)])
  best : ∀ {chains b c placed}, chains.Pairwise (fun a b => a.last.position < b.last.position) →
    Chain.best? chains = some b → c ∈ chains → Prefers c placed → Prefers b placed

/-- What the chains for some records satisfy. -/
structure Layer (Prefers : Chain α → List (Nat × Record) → Prop) (rs : List Record)
    (chains : List (Chain α)) : Prop where
  ascending : chains.Pairwise fun a b => a.last.position < b.last.position
  traces : ∀ c ∈ chains, ∃ placed, m.Feasible lines rs placed ∧ m.Traces lines placed c
  reaches : ∀ placed, m.Feasible lines rs placed → ∀ x ∈ placed.getLast?,
    ∃ c ∈ chains, c.last.position = x.1 ∧ Prefers c placed

variable {m lines}

/-! ## Traces -/

theorem Traces.candidates {placed : List (Nat × Record)} {c : Chain α} (h : m.Traces lines placed c) :
    List.Forall₂ (fun x y => m.candidate? lines x.2 x.1 = some y) placed c.candidates := by
  induction h with
  | single hx => exact .cons hx .nil
  | extend hc hx ih =>
    simpa [Chain.candidates, Chain.extend] using List.rel_append ih (.cons hx .nil)

theorem Traces.getLast? {placed : List (Nat × Record)} {c : Chain α} (h : m.Traces lines placed c) :
    ∃ r, placed.getLast? = some (c.last.position, r) := by
  cases h with
  | single hx =>
    obtain ⟨-, rfl, -⟩ := candidate?_eq_some.mp hx
    exact ⟨_, rfl⟩
  | extend hc hx =>
    obtain ⟨-, rfl, -⟩ := candidate?_eq_some.mp hx
    exact ⟨_, List.getLast?_concat⟩

/-- The last record of a placement is the last one placed. -/
theorem Feasible.last_record {rs : List Record} {r : Record} {placed : List (Nat × Record)}
    {x : Nat × Record} (h : m.Feasible lines (rs ++ [r]) placed) (hx : placed.getLast? = some x) :
    x.2 = r := by
  obtain ⟨before, p, rfl⟩ := exists_of_feasible_concat h
  obtain rfl : (p, r) = x := by simpa using hx
  rfl

/-! ## The best chain -/

theorem foldl_better_ne_none (chains : List (Chain α)) (b : Chain α) :
    ∃ x, chains.foldl Chain.better (some b) = some x ∧ x ∈ b :: chains := by
  induction chains generalizing b with
  | nil => exact ⟨b, rfl, by simp⟩
  | cons c rest ih =>
    simp only [List.foldl_cons, Chain.better]
    split
    · obtain ⟨x, hx, hm⟩ := ih c
      exact ⟨x, hx, List.mem_cons_of_mem _ hm⟩
    · obtain ⟨x, hx, hm⟩ := ih b
      refine ⟨x, hx, ?_⟩
      rcases List.mem_cons.mp hm with rfl | hm
      · exact List.mem_cons_self
      · exact List.mem_cons_of_mem _ (List.mem_cons_of_mem _ hm)

/-- Among any chains there is a best one, and it is one of them. -/
theorem exists_best {chains : List (Chain α)} (h : chains ≠ []) :
    ∃ b ∈ chains, Chain.best? chains = some b := by
  cases chains with
  | nil => exact absurd rfl h
  | cons c rest =>
    obtain ⟨b, hb, hm⟩ := foldl_better_ne_none rest c
    exact ⟨b, hm, hb⟩

theorem mem_of_best? {chains : List (Chain α)} {b : Chain α} (h : Chain.best? chains = some b) :
    b ∈ chains := by
  have hne : chains ≠ [] := by
    intro heq
    subst heq
    cases h
  obtain ⟨x, hx, he⟩ := exists_best hne
  rw [h, Option.some.injEq] at he
  exact he ▸ hx

/-! ## One more record -/

variable {Prefers : Chain α → List (Nat × Record) → Prop}

theorem layer_first (hk : m.Kept lines Prefers) (r : Record) :
    m.Layer lines Prefers ([] ++ [r]) ((m.qualifying lines r).map Chain.single) where
  ascending := List.pairwise_map.mpr (qualifying_ascending r)
  traces := by
    intro c hc
    obtain ⟨x, hx, rfl⟩ := List.mem_map.mp hc
    exact ⟨[(x.position, r)], feasible_singleton (suits_of_mem_qualifying hx),
      .single (mem_qualifying.mp hx).1⟩
  reaches := by
    intro placed hf x hx
    obtain ⟨before, p, rfl⟩ := exists_of_feasible_concat hf
    obtain ⟨hf, hp, -⟩ := feasible_concat.mp hf
    obtain rfl : before = [] := by simpa using hf.records
    obtain rfl : (p, r) = x := by simpa using hx
    obtain ⟨c, hc, rfl⟩ := exists_mem_qualifying hp
    exact ⟨Chain.single c, List.mem_map_of_mem hc, rfl, hk.single (mem_qualifying.mp hc).1⟩

/-- The chains for one more record are those of the layer, continued by its candidates. -/
theorem mem_continueChains {rs : List Record} {chains : List (Chain α)} {extent : Nat} {r : Record}
    {c : Chain α} (h : m.Layer lines Prefers rs chains) :
    c ∈ continueChains extent none chains (m.qualifying lines r) ↔
      ∃ x ∈ m.qualifying lines r, ∃ b,
        Chain.best? (chains.filter (Chain.fits extent x)) = some b ∧ b.extend x = c := by
  simp only [continueChains_eq h.ascending (qualifying_ascending r), List.mem_filterMap,
    Option.map_eq_some_iff]

theorem Layer.next (hk : m.Kept lines Prefers) {rs : List Record} {r₀ : Record}
    {chains : List (Chain α)} (h : m.Layer lines Prefers (rs ++ [r₀]) chains) (r : Record) :
    m.Layer lines Prefers (rs ++ [r₀] ++ [r])
      (continueChains r₀.extent none chains (m.qualifying lines r)) where
  ascending := by
    rw [continueChains_eq h.ascending (qualifying_ascending r)]
    refine List.pairwise_filterMap.mpr ((qualifying_ascending r).imp fun {x y} hxy a ha b hb => ?_)
    obtain ⟨-, -, rfl⟩ := Option.map_eq_some_iff.mp ha
    obtain ⟨-, -, rfl⟩ := Option.map_eq_some_iff.mp hb
    exact hxy
  traces := by
    intro c hc
    obtain ⟨x, hx, b, hb, rfl⟩ := (mem_continueChains h).mp hc
    obtain ⟨hb, hfit⟩ := List.mem_filter.mp (mem_of_best? hb)
    obtain ⟨placed, hf, ht⟩ := h.traces b hb
    refine ⟨placed ++ [(x.position, r)], feasible_concat.mpr ⟨hf, suits_of_mem_qualifying hx, ?_⟩,
      .extend ht (mem_qualifying.mp hx).1⟩
    intro y hy
    obtain ⟨r', hr'⟩ := ht.getLast?
    obtain rfl : (b.last.position, r') = y := by simpa [hr'] using hy
    rw [hf.last_record hr']
    simpa [Chain.fits] using hfit
  reaches := by
    intro placed hf y hy
    obtain ⟨before, p, rfl⟩ := exists_of_feasible_concat hf
    obtain ⟨hf, hp, hlast⟩ := feasible_concat.mp hf
    obtain rfl : (p, r) = y := by simpa using hy
    obtain ⟨before', p₀, rfl⟩ := exists_of_feasible_concat hf
    obtain ⟨c, hc, hcp, hpref⟩ := h.reaches _ hf (p₀, r₀) (by simp)
    obtain ⟨x, hx, rfl⟩ := exists_mem_qualifying hp
    have hfit : c ∈ chains.filter (Chain.fits r₀.extent x) := by
      refine List.mem_filter.mpr ⟨hc, ?_⟩
      have := hlast (p₀, r₀) (by simp)
      simpa [Chain.fits, hcp] using this
    obtain ⟨b, -, hb⟩ := exists_best (List.ne_nil_of_mem hfit)
    refine ⟨b.extend x, (mem_continueChains h).mpr ⟨x, hx, b, hb, rfl⟩, rfl, ?_⟩
    exact hk.extend (hk.best (h.ascending.filter _) hb hfit hpref) (mem_qualifying.mp hx).1

/-! ## A whole version -/

/-- A record that no placement reaches, unlike the records before it. -/
def Stuck (m : Matching α) (lines : List Text) (rs : List Record) (r : Record) : Prop :=
  ∃ before after, rs = before ++ r :: after ∧ (∃ placed, m.Feasible lines before placed) ∧
    ¬ ∃ placed, m.Feasible lines (before ++ [r]) placed

/-- A layer without chains says that there is no placement. -/
theorem Layer.eq_nil_iff {rs : List Record} {r : Record} {chains : List (Chain α)}
    (h : m.Layer lines Prefers (rs ++ [r]) chains) :
    chains = [] ↔ ¬ ∃ placed, m.Feasible lines (rs ++ [r]) placed := by
  constructor
  · intro hx heq
    subst hx
    obtain ⟨placed, hf⟩ := heq
    obtain ⟨before, p, rfl⟩ := exists_of_feasible_concat hf
    obtain ⟨c, hc, -⟩ := h.reaches _ hf (p, r) (by simp)
    cases hc
  · intro hno
    refine List.eq_nil_iff_forall_not_mem.mpr fun c hc => hno ?_
    obtain ⟨placed, hf, -⟩ := h.traces c hc
    exact ⟨placed, hf⟩

/-- What the search for some records ends with. -/
def Searched (m : Matching α) (lines : List Text) (Prefers : Chain α → List (Nat × Record) → Prop)
    (rs : List Record) : Except (Unplaced α) (List (Chain α)) → Prop
  | .ok chains => m.Layer lines Prefers rs chains ∧ chains ≠ []
  | .error u => Stuck m lines rs u.record

theorem chainsFrom_searched (hk : m.Kept lines Prefers) (rest : List Record) :
    ∀ {rs : List Record} {r : Record} {chains : List (Chain α)},
      m.Layer lines Prefers (rs ++ [r]) chains → chains ≠ [] →
      Searched m lines Prefers (rs ++ [r] ++ rest) (m.chainsFrom lines chains r.extent rest) := by
  induction rest with
  | nil =>
    intro rs r chains h hne
    rw [List.append_nil]
    exact ⟨h, hne⟩
  | cons r' rest ih =>
    intro rs r chains h hne
    have hnext := h.next hk r'
    simp only [chainsFrom]
    cases hc : continueChains r.extent none chains (m.qualifying lines r') with
    | nil =>
      rw [hc] at hnext
      exact ⟨rs ++ [r], rest, rfl, not_not.mp fun hno => hne (h.eq_nil_iff.mpr hno),
        hnext.eq_nil_iff.mp rfl⟩
    | cons c cs =>
      rw [hc] at hnext
      have := ih hnext (List.cons_ne_nil c cs)
      rwa [List.append_assoc (rs ++ [r])] at this

theorem chains_searched (hk : m.Kept lines Prefers) (r : Record) (rest : List Record) :
    Searched m lines Prefers (r :: rest) (m.chains lines (r :: rest)) := by
  have hfirst := layer_first hk r
  simp only [chains]
  cases hc : m.qualifying lines r with
  | nil =>
    rw [hc] at hfirst
    exact ⟨[], rest, rfl, ⟨[], feasible_nil⟩, hfirst.eq_nil_iff.mp rfl⟩
  | cons c cs =>
    rw [hc] at hfirst
    exact chainsFrom_searched hk rest hfirst (List.cons_ne_nil _ _)

end Matching

/-! ## The placed version -/

/-- The records of a placed version with their places. -/
def PlacedVersion.places (pv : PlacedVersion α) : List (Nat × Record) :=
  pv.placed.map fun p => (p.position, p.record)

/-- A placed record without the record. -/
def Placed.candidate (p : Placed α) : Candidate α := ⟨p.position, p.score, p.distance⟩

namespace Matching

/-- What is known of a version that was placed. -/
structure Chosen (m : Matching α) (lines : List Text) (Prefers : Chain α → List (Nat × Record) → Prop)
    (v : Version) (pv : PlacedVersion α) : Prop where
  version : pv.version = v
  feasible : m.Feasible lines v.records pv.places
  scored : ∀ p ∈ pv.placed, m.candidate? lines p.record p.position = some p.candidate
  preferred : ∀ placed, m.Feasible lines v.records placed → placed ≠ [] →
    ∃ c, m.Traces lines pv.places c ∧ Prefers c placed

variable {m : Matching α} {lines : List Text} {Prefers : Chain α → List (Nat × Record) → Prop}

/-- Records put together with the candidates of a placement give the placement back. -/
theorem zipWith_placed {placed : List (Nat × Record)} {cs : List (Candidate α)}
    (h : List.Forall₂ (fun x y => m.candidate? lines x.2 x.1 = some y) placed cs) :
    let all := (placed.map Prod.snd).zipWith
      (fun r c => (⟨r, c.position, c.score, c.distance⟩ : Placed α)) cs
    (all.map fun p => (p.position, p.record)) = placed ∧
      ∀ p ∈ all, m.candidate? lines p.record p.position = some p.candidate := by
  induction h with
  | nil => simp
  | @cons x y _ _ hxy _ ih =>
    obtain ⟨hp, hs⟩ := ih
    obtain ⟨p, r⟩ := x
    obtain ⟨-, rfl, -⟩ := candidate?_eq_some.mp hxy
    refine ⟨by simp only [List.map_cons, List.zipWith_cons_cons, hp], ?_⟩
    intro p hmem
    rcases List.mem_cons.mp hmem with rfl | hmem
    · exact hxy
    · exact hs p hmem

/-- A version without records is placed by doing nothing. -/
theorem chosen_of_records_eq_nil {v : Version} (h : v.records = []) :
    Chosen m lines Prefers v ⟨v, []⟩ where
  version := rfl
  feasible := by rw [h]; exact feasible_nil
  scored := by simp
  preferred := by
    intro placed hf hne
    have := hf.records
    simp only [h, List.map_eq_nil_iff] at this
    exact absurd this hne

/-- What placing a version comes to. -/
theorem place_chosen (hk : m.Kept lines Prefers) (v : Version) :
    match m.place lines v with
    | .ok pv => Chosen m lines Prefers v pv
    | .error u => Stuck m lines v.records u.record := by
  cases hr : v.records with
  | nil =>
    have : m.place lines v = .ok ⟨v, []⟩ := by simp [place, chains, hr, bind, Except.bind, pure, Except.pure]
    rw [this]
    exact chosen_of_records_eq_nil hr
  | cons r rest =>
    have hs := chains_searched hk r rest
    rw [← hr] at hs
    simp only [place, bind, Except.bind, pure, Except.pure]
    cases hc : m.chains lines v.records with
    | error u =>
      rw [hc] at hs
      rw [← hr]
      exact hs
    | ok chains =>
      rw [hc] at hs
      obtain ⟨hl, hne⟩ := hs
      obtain ⟨b, hb, hbest⟩ := exists_best hne
      obtain ⟨placed, hf, ht⟩ := hl.traces b hb
      have hz := zipWith_placed ht.candidates
      simp only [hf.records] at hz
      simp only [hbest, Option.map_some, Option.getD_some]
      refine ⟨rfl, ?_, hz.2, ?_⟩
      · simp only [PlacedVersion.places, hz.1]
        exact hf
      · intro rival hrival hrne
        simp only [PlacedVersion.places, hz.1]
        obtain ⟨c, hc, -, hp⟩ := hl.reaches rival hrival _ (List.getLast?_eq_some_getLast hrne)
        exact ⟨b, ht, hk.best hl.ascending hbest hc hp⟩

theorem kept_trivial (m : Matching α) (lines : List Text) : m.Kept lines fun _ _ => True :=
  ⟨fun _ => trivial, fun _ _ => trivial, fun _ _ _ _ => trivial⟩

/-- Whatever the numbers, a placed version keeps its records apart in places that suit them. -/
theorem place_feasible {v : Version} {pv : PlacedVersion α} (h : m.place lines v = .ok pv) :
    pv.version = v ∧ m.Feasible lines v.records pv.places := by
  have := place_chosen (kept_trivial m lines) v
  rw [h] at this
  exact ⟨this.version, this.feasible⟩

theorem place_stuck {v : Version} {u : Unplaced α} (h : m.place lines v = .error u) :
    Stuck m lines v.records u.record := by
  have := place_chosen (kept_trivial m lines) v
  rwa [h] at this

/-- A version with a feasible placement is placed. -/
theorem exists_place {v : Version} {placed : List (Nat × Record)} (h : m.Feasible lines v.records placed) :
    ∃ pv, m.place lines v = .ok pv := by
  cases hp : m.place lines v with
  | ok pv => exact ⟨pv, rfl⟩
  | error u =>
    obtain ⟨before, after, hrs, -, hno⟩ := place_stuck hp
    have htake := h.take (before.length + 1)
    rw [hrs, List.append_cons, List.take_left' (by simp)] at htake
    exact absurd ⟨_, htake⟩ hno

end Matching

end

end Regraft

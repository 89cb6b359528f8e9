import Regraft.Proofs.Match.Optimum
import Regraft.Proofs.Match.Selection
import Regraft.Proofs.Match.Similarity
/-!
# Placement at the anchors

Where a version was recorded, it goes back to its anchors: every record of it scores 1 there (`score_anchored`),
no place scores higher (`score_le_one`), and a record at a distance from its anchor has a distance above 0.

* `place_anchored`: the best placement of records at their anchors is the one at the anchors;
* `place_alike`: a version with the changes of such records has full scores too, if it may drift;
* `select_anchored`: among versions of lower orders, such a version is selected.
-/
namespace Regraft

/-- Records at their anchors. -/
def atAnchors (rs : List Record) : List (Nat × Record) := rs.map fun r => (r.anchor.toNat, r)

/-- A record's anchor, stock and context are those of the lines. -/
structure Anchored (lines : List Text) (r : Record) : Prop where
  nonneg : 0 ≤ r.anchor
  inside : r.anchor.toNat ≤ lines.length
  fits : Matching.extentFits lines r.anchor.toNat r = true
  preceding : r.preceding = (lines.take r.anchor.toNat).drop (r.anchor.toNat - r.preceding.length)
  following : r.following <+: lines.drop (r.anchor.toNat + r.extent)

/-! ## Scores -/

theorem zip_of_prefix {xs ys : List Text} (h : xs <+: ys) : xs.zip ys = xs.zip xs := by
  obtain ⟨rest, rfl⟩ := h
  induction xs with
  | nil => simp
  | cons x xs ih => simp [ih]

namespace Matching

variable {m : Matching ℚ} {lines : List Text}

theorem agreementOf_eq (m : Matching ℚ) (pairs : List (Text × Text)) :
    m.agreementOf pairs = (pairs.map fun x => m.similarity x.1 x.2).sum := by
  have hfold : ∀ (pairs : List (Text × Text)) (sum : ℚ),
      pairs.foldl (fun sum x => sum + m.similarity x.1 x.2) sum =
        sum + (pairs.map fun x => m.similarity x.1 x.2).sum := by
    intro pairs
    induction pairs with
    | nil => simp
    | cons x pairs ih => intro sum; rw [List.foldl_cons, ih, List.map_cons, List.sum_cons, add_assoc]
  have := hfold pairs 0
  rw [zero_add] at this
  exact this

theorem sum_le_length {xs : List ℚ} (h : ∀ x ∈ xs, x ≤ 1) : xs.sum ≤ xs.length := by
  have := List.sum_le_card_nsmul xs 1 h
  simpa using this

theorem sum_eq_length {xs : List ℚ} (h : ∀ x ∈ xs, x = 1) : xs.sum = xs.length := by
  rw [List.eq_replicate_iff.mpr ⟨rfl, h⟩]
  simp

/-- Numbers up to 1 that add up to their count are all 1. -/
theorem eq_one_of_length_le_sum {xs : List ℚ} (h : ∀ x ∈ xs, x ≤ 1) (hs : (xs.length : ℚ) ≤ xs.sum) :
    ∀ x ∈ xs, x = 1 := by
  induction xs with
  | nil => simp
  | cons y xs ih =>
    have hrest : ∀ x ∈ xs, x ≤ 1 := fun x hx => h x (List.mem_cons_of_mem _ hx)
    have hy := h y List.mem_cons_self
    have hle := sum_le_length hrest
    simp only [List.length_cons, List.sum_cons, Nat.cast_add, Nat.cast_one] at hs
    intro x hx
    rcases List.mem_cons.mp hx with rfl | hx
    · linarith
    · exact ih hrest (by linarith) x hx

theorem length_comparedLines_le (lines : List Text) (p : Nat) (r : Record) :
    (comparedLines lines p r).length ≤ r.contextSize := by
  simp only [comparedLines, Record.contextSize, List.length_append, List.length_zip, List.length_drop]
  omega

/-- No place scores above 1. -/
theorem score_le_one (hm : Measure m.similarity) {p : Nat} {r : Record} {s : ℚ} (h : m.score lines p r = some s) :
    s ≤ 1 := by
  unfold score at h
  split at h
  · cases h
  split at h
  · obtain rfl : 1 = s := by simpa [Scale.ofNat] using h
    exact le_rfl
  · rename_i hne
    obtain rfl := Option.some.inj h
    have hsum : m.agreementOf (comparedLines lines p r) ≤ r.contextSize := by
      have hbound : ∀ x ∈ (comparedLines lines p r).map fun x => m.similarity x.1 x.2, x ≤ 1 := by
        intro x hx
        obtain ⟨pair, -, rfl⟩ := List.mem_map.mp hx
        exact hm.le_one pair.1 pair.2
      have hpairs := sum_le_length hbound
      rw [← agreementOf_eq, List.length_map] at hpairs
      have hle : ((comparedLines lines p r).length : ℚ) ≤ r.contextSize := by
        exact_mod_cast length_comparedLines_le lines p r
      linarith
    have hpos : (0 : ℚ) < r.contextSize := by exact_mod_cast Nat.pos_of_ne_zero hne
    exact (div_le_one hpos).mpr hsum

/-- A record scores 1 at its anchor. -/
theorem score_anchored (hm : Measure m.similarity) {r : Record} (h : Anchored lines r) :
    m.score lines r.anchor.toNat r = some 1 := by
  have hpre : r.preceding.length ≤ r.anchor.toNat := by
    have := congrArg List.length h.preceding
    simp only [List.length_drop, List.length_take] at this
    omega
  have hpairs : comparedLines lines r.anchor.toNat r = (r.preceding ++ r.following).zip (r.preceding ++ r.following) := by
    simp only [comparedLines, ← h.preceding, Nat.sub_eq_zero_of_le hpre, List.drop_zero, zip_of_prefix h.following]
    rw [List.zip_append rfl]
  have hself : ∀ ts : List Text, ((ts.zip ts).map fun x => m.similarity x.1 x.2).sum = ts.length := by
    intro ts
    induction ts with
    | nil => simp
    | cons t ts ih => simp [ih, hm.self, add_comm]
  have hplace : ¬ (decide (lines.length < r.anchor.toNat) || !extentFits lines r.anchor.toNat r) = true := by
    rw [h.fits, Bool.not_true, Bool.or_false, decide_eq_true_eq]
    exact Nat.not_lt.mpr h.inside
  unfold score
  rw [if_neg hplace]
  split
  · rfl
  · rename_i hne
    rw [agreementOf_eq, hpairs, hself, List.length_append]
    have hne' : ((r.preceding.length + r.following.length : Nat) : ℚ) ≠ 0 := by exact_mod_cast hne
    exact congrArg some (div_self hne')

theorem drift_anchored {r : Record} (h : Anchored lines r) : (drift r.anchor.toNat r : ℚ) = 0 := by
  have : ((r.anchor.toNat : Int) - r.anchor).natAbs = 0 := by
    have := h.nonneg
    omega
  unfold drift
  rw [this]
  rfl

theorem drift_nonneg (p : Nat) (r : Record) : (0 : ℚ) ≤ drift p r := by
  simp [drift, Scale.ofNat]

theorem eq_anchor_of_drift {p : Nat} {r : Record} (h : (drift p r : ℚ) = 0) : (p : Int) = r.anchor := by
  simp only [drift, Scale.ofNat, Nat.cast_eq_zero, Int.natAbs_eq_zero] at h
  omega

/-! ## The best placement -/

/-- Settings of a match that admit a record at its anchor. -/
structure Admissible (m : Matching ℚ) : Prop where
  measure : Measure m.similarity
  content : 0 ≤ m.contentTolerance
  line : ∀ limit ∈ m.lineTolerance, 0 ≤ limit

theorem suits_anchored (hm : m.Admissible) {r : Record} (h : Anchored lines r) :
    m.Suits lines r r.anchor.toNat := by
  refine ⟨?_, 1, score_anchored hm.measure h, ?_⟩
  · rw [drift_anchored h]
    unfold allows
    cases hl : m.lineTolerance with
    | none => rfl
    | some limit =>
      have := hm.line limit hl
      simpa using this
  · have hcontent := hm.content
    have hrequired : m.requiredScore ≤ (1 : ℚ) + Scale.slack := by
      show (1 : ℚ) - m.contentTolerance ≤ 1 + 1 / 1000000000
      linarith [show (0 : ℚ) ≤ 1 / 1000000000 by norm_num]
    simpa [qualifies] using hrequired

theorem feasible_atAnchors (hm : m.Admissible) {rs : List Record} (h : ∀ r ∈ rs, Anchored lines r)
    (ha : Apart (atAnchors rs)) : m.Feasible lines rs (atAnchors rs) := by
  refine ⟨by simp [atAnchors, Function.comp_def], fun x hx => ?_, ha⟩
  obtain ⟨r, hr, rfl⟩ := List.mem_map.mp hx
  exact suits_anchored hm (h r hr)

/-- Places where all records score 1 have their number as the total score. -/
theorem totalScore_full {placed : List (Nat × Record)} (h : ∀ x ∈ placed, m.score lines x.1 x.2 = some 1) :
    m.totalScore lines placed = placed.length := by
  rw [totalScore, sum_eq_length, List.length_map]
  intro s hs
  obtain ⟨x, hx, rfl⟩ := List.mem_map.mp hs
  rw [h x hx]
  rfl

theorem score_atAnchors (hm : m.Admissible) {rs : List Record} (h : ∀ r ∈ rs, Anchored lines r) :
    ∀ x ∈ atAnchors rs, m.score lines x.1 x.2 = some 1 := by
  intro x hx
  obtain ⟨r, hr, rfl⟩ := List.mem_map.mp hx
  exact score_anchored hm.measure (h r hr)

theorem totalDrift_atAnchors {rs : List Record} (h : ∀ r ∈ rs, Anchored lines r) : totalDrift (atAnchors rs) = 0 := by
  refine List.sum_eq_zero fun d hd => ?_
  simp only [atAnchors, List.map_map, List.mem_map, Function.comp_apply] at hd
  obtain ⟨r, hr, rfl⟩ := hd
  exact drift_anchored (h r hr)

/-- What the placement of a version says about its records. -/
theorem scored_of_place {v : Version} {pv : PlacedVersion ℚ} (h : m.place lines v = .ok pv) {p : Placed ℚ}
    (hp : p ∈ pv.placed) : m.score lines p.position p.record = some p.score ∧
      p.distance = drift p.position p.record := by
  have hc := place_chosen (kept_trivial m lines) v
  rw [h] at hc
  obtain ⟨-, -, hd, hs⟩ := candidate?_eq_some.mp (hc.scored p hp)
  exact ⟨hs, hd⟩

/-- The total score of a placement is that of its records. -/
theorem totalScore_places {v : Version} {pv : PlacedVersion ℚ} (h : m.place lines v = .ok pv) :
    m.totalScore lines pv.places = (pv.placed.map Placed.score).sum := by
  simp only [totalScore, PlacedVersion.places, List.map_map, Function.comp_def]
  refine congrArg List.sum (List.map_congr_left fun p hp => ?_)
  rw [(scored_of_place h hp).1]
  rfl

/-- If records can be placed with full scores, they are. -/
theorem place_full (hm : Measure m.similarity) {v : Version} {rival : List (Nat × Record)}
    (hrival : m.Feasible lines v.records rival) (hfull : ∀ x ∈ rival, m.score lines x.1 x.2 = some 1) :
    ∃ pv, m.place lines v = .ok pv ∧ pv.version = v ∧ ∀ p ∈ pv.placed, p.score = 1 := by
  obtain ⟨pv, hpv⟩ := exists_place hrival
  obtain ⟨hversion, hfeasible⟩ := place_feasible hpv
  refine ⟨pv, hpv, hversion, ?_⟩
  have hcount : rival.length = v.records.length := by
    simpa using congrArg List.length hrival.records
  have hlen : pv.placed.length = v.records.length := by
    simpa [PlacedVersion.places] using congrArg List.length hfeasible.records
  have hle : ∀ s ∈ pv.placed.map Placed.score, s ≤ 1 := by
    intro s hs
    obtain ⟨p, hp, rfl⟩ := List.mem_map.mp hs
    exact score_le_one hm (scored_of_place hpv hp).1
  have hsum : ((pv.placed.map Placed.score).length : ℚ) ≤ (pv.placed.map Placed.score).sum := by
    have hbest := atLeast_of_place hpv hrival
    rw [List.length_map, hlen, ← hcount, ← totalScore_full hfull, ← totalScore_places hpv]
    rcases hbest with hlt | ⟨heq, -⟩
    · exact hlt.le
    · exact heq.le
  exact fun p hp => eq_one_of_length_le_sum hle hsum _ (List.mem_map_of_mem hp)

/-- A version recorded from these lines is placed at its anchors, with full scores and without distance. -/
theorem place_anchored (hm : m.Admissible) {v : Version} (h : ∀ r ∈ v.records, Anchored lines r)
    (ha : Apart (atAnchors v.records)) :
    ∃ pv, m.place lines v = .ok pv ∧ pv.version = v ∧ pv.places = atAnchors v.records ∧
      ∀ p ∈ pv.placed, p.score = 1 ∧ p.distance = 0 := by
  have hrival := feasible_atAnchors hm h ha
  have hfull := score_atAnchors hm h
  obtain ⟨pv, hpv, hversion, hone⟩ := place_full hm.measure hrival hfull
  obtain ⟨-, hfeasible⟩ := place_feasible hpv
  have hnonneg : ∀ d ∈ pv.placed.map Placed.distance, 0 ≤ d := by
    intro d hd
    obtain ⟨p, hp, rfl⟩ := List.mem_map.mp hd
    rw [(scored_of_place hpv hp).2]
    exact drift_nonneg _ _
  have hscore : m.totalScore lines pv.places = m.totalScore lines (atAnchors v.records) := by
    have hcount : pv.placed.length = (atAnchors v.records).length := by
      simpa [PlacedVersion.places, atAnchors] using congrArg List.length hfeasible.records
    rw [totalScore_places hpv, sum_eq_length (by simpa using hone), totalScore_full hfull, List.length_map, hcount]
  -- The rival has no distance, and the placement has no better score, so it has no distance either.
  have hsum : (pv.placed.map Placed.distance).sum = 0 := by
    have hdrifts : totalDrift pv.places = (pv.placed.map Placed.distance).sum := by
      simp only [totalDrift, PlacedVersion.places, List.map_map, Function.comp_def]
      exact congrArg List.sum (List.map_congr_left fun p hp => (scored_of_place hpv hp).2.symm)
    have hbest := atLeast_of_place hpv hrival
    have hleast := List.sum_nonneg hnonneg
    simp only [AtLeast, hscore, totalDrift_atAnchors h, hdrifts] at hbest
    rcases hbest with hlt | ⟨-, hd⟩
    · exact absurd hlt (lt_irrefl _)
    · rcases hd with hd | ⟨hd, -⟩
      · linarith
      · exact hd
  have hzero : ∀ p ∈ pv.placed, p.distance = 0 := fun p hp =>
    List.all_zero_of_le_zero_le_of_sum_eq_zero hnonneg hsum (List.mem_map_of_mem hp)
  refine ⟨pv, hpv, hversion, ?_, fun p hp => ⟨hone p hp, hzero p hp⟩⟩
  have hplaces : pv.places = atAnchors (pv.places.map Prod.snd) := by
    simp only [atAnchors, PlacedVersion.places, List.map_map, Function.comp_def]
    refine List.map_congr_left fun p hp => ?_
    have hanchor := eq_anchor_of_drift ((scored_of_place hpv hp).2.symm.trans (hzero p hp))
    rw [← hanchor]
    rfl
  rw [hplaces, hfeasible.records]

/-! ## Records of the same changes -/

theorem extent_of_identity {r r' : Record} (h : r.identity = r'.identity) : r.extent = r'.extent := by
  simp only [Record.identity, Identity.mk.injEq] at h
  simp only [Record.extent, h.1, h.2.2.2.2]

/-- Where a record can go and how it scores there is a matter of its changes. -/
theorem score_of_identity {r r' : Record} (h : r.identity = r'.identity) (p : Nat) :
    m.score lines p r = m.score lines p r' := by
  have hextent := extent_of_identity h
  simp only [Record.identity, Identity.mk.injEq] at h
  obtain ⟨hkind, hpreceding, hfollowing, -, hstock⟩ := h
  have hfits : extentFits lines p r = extentFits lines p r' := by
    simp only [extentFits, hkind, hextent, hstock]
  have hcompared : comparedLines lines p r = comparedLines lines p r' := by
    simp only [comparedLines, hpreceding, hfollowing, hextent]
  have hcontext : r.contextSize = r'.contextSize := by
    simp only [Record.contextSize, hpreceding, hfollowing]
  rw [score, score, hfits, hcompared, hcontext]

/-- Records at the anchors of others. -/
def atAnchorsOf (others rs : List Record) : List (Nat × Record) := others.zipWith (fun o r => (o.anchor.toNat, r)) rs

theorem atAnchorsOf_alike (others : List Record) :
    ∀ {rs : List Record}, rs.map Record.identity = others.map Record.identity →
      (atAnchorsOf others rs).map Prod.snd = rs ∧
        (∀ x ∈ atAnchorsOf others rs, ∃ o ∈ others, x.1 = o.anchor.toNat ∧ x.2.identity = o.identity) ∧
          (atAnchorsOf others rs).map (fun x => (x.1, x.2.extent)) =
            (atAnchors others).map fun x => (x.1, x.2.extent) := by
  induction others with
  | nil =>
    intro rs h
    obtain rfl := List.map_eq_nil_iff.mp h
    exact ⟨rfl, by simp [atAnchorsOf], rfl⟩
  | cons o others ih =>
    intro rs h
    cases rs with
    | nil => cases h
    | cons r rs =>
      obtain ⟨hsame, hrest⟩ := List.cons.inj h
      obtain ⟨hrecords, halike, hextents⟩ := ih hrest
      have hcons : atAnchorsOf (o :: others) (r :: rs) = (o.anchor.toNat, r) :: atAnchorsOf others rs := rfl
      refine ⟨by rw [hcons, List.map_cons, hrecords], fun x hx => ?_, ?_⟩
      · rcases List.mem_cons.mp (hcons ▸ hx) with rfl | hx
        · exact ⟨o, List.mem_cons_self, rfl, hsame⟩
        · obtain ⟨other, hother, hplace⟩ := halike x hx
          exact ⟨other, List.mem_cons_of_mem _ hother, hplace⟩
      · rw [hcons, List.map_cons, hextents, extent_of_identity hsame]
        rfl

/-- Without a limit to the drift, a version is placed with full scores where its changes were recorded, whatever its own
anchors are. -/
theorem place_alike (hm : m.Admissible) (hline : m.lineTolerance = none) {others : List Record}
    (h : ∀ r ∈ others, Anchored lines r) (ha : Apart (atAnchors others)) {v : Version}
    (hv : v.identities = others.map Record.identity) :
    ∃ pv, m.place lines v = .ok pv ∧ pv.version = v ∧ ∀ p ∈ pv.placed, p.score = 1 := by
  obtain ⟨hrecords, halike, hextents⟩ := atAnchorsOf_alike others hv
  have hfull : ∀ x ∈ atAnchorsOf others v.records, m.score lines x.1 x.2 = some 1 := by
    intro x hx
    obtain ⟨o, ho, hplace, hsame⟩ := halike x hx
    rw [hplace, score_of_identity hsame, score_anchored hm.measure (h o ho)]
  refine place_full hm.measure ⟨hrecords, fun x hx => ⟨?_, 1, hfull x hx, ?_⟩, ?_⟩ hfull
  · simp [allows, hline]
  · obtain ⟨o, ho, -⟩ := halike x hx
    obtain ⟨s, hs, hqualifies⟩ := (suits_anchored hm (h o ho)).agrees
    rw [score_anchored hm.measure (h o ho)] at hs
    rwa [Option.some.inj hs]
  · have hchain : ((atAnchors others).map fun x => (x.1, x.2.extent)).IsChain fun a b => a.1 + a.2 ≤ b.1 :=
      List.isChain_map _ |>.mpr ha
    rw [← hextents] at hchain
    exact List.isChain_map _ |>.mp hchain

end Matching

/-! ## The selected version -/

namespace PlacedVersion

/-- One placed version comes before another in the choice. -/
theorem atLeast_iff {a b : PlacedVersion ℚ} :
    a.atLeast b = true ↔ b.score < a.score ∨ b.score = a.score ∧
      (b.version.order < a.version.order ∨ b.version.order = a.version.order ∧ a.distance ≤ b.distance) := by
  simp only [PlacedVersion.atLeast, Scale.same, beq_iff_eq]
  split
  · rename_i hs
    split
    · rename_i ho
      simp [hs, ho]
    · rename_i ho
      have : b.version.order ≠ a.version.order := fun h => ho h.symm
      simp [hs, this]
  · rename_i hs
    have : b.score ≠ a.score := fun h => hs h.symm
    simp [this]

theorem atLeast_trans (a b c : PlacedVersion ℚ) (hab : a.atLeast b = true) (hbc : b.atLeast c = true) :
    a.atLeast c = true := by
  rw [atLeast_iff] at *
  rcases hab with hab | ⟨hab, hab'⟩ <;> rcases hbc with hbc | ⟨hbc, hbc'⟩
  · exact .inl (hbc.trans hab)
  · exact .inl (hbc ▸ hab)
  · exact .inl (hab ▸ hbc)
  · refine .inr ⟨hbc.trans hab, ?_⟩
    rcases hab' with hab' | ⟨ho, hd⟩ <;> rcases hbc' with hbc' | ⟨ho', hd'⟩
    · exact .inl (hbc'.trans hab')
    · exact .inl (ho' ▸ hab')
    · exact .inl (ho ▸ hbc')
    · exact .inr ⟨ho'.trans ho, hd.trans hd'⟩

theorem atLeast_total (a b : PlacedVersion ℚ) : (a.atLeast b || b.atLeast a) = true := by
  rw [Bool.or_eq_true, atLeast_iff, atLeast_iff]
  rcases lt_trichotomy a.score b.score with h | h | h
  · exact .inr (.inl h)
  · rcases lt_trichotomy a.version.order b.version.order with ho | ho | ho
    · exact .inr (.inr ⟨h, .inl ho⟩)
    · rcases le_total a.distance b.distance with hd | hd
      · exact .inl (.inr ⟨h.symm, .inr ⟨ho.symm, hd⟩⟩)
      · exact .inr (.inr ⟨h, .inr ⟨ho, hd⟩⟩)
    · exact .inl (.inr ⟨h.symm, .inl ho⟩)
  · exact .inl (.inl h)

theorem score_eq (p : PlacedVersion ℚ) :
    p.score = if p.placed = [] then 1 else (p.placed.map Placed.score).sum / p.placed.length := by
  have hfold : ∀ (placed : List (Placed ℚ)) (sum : ℚ),
      placed.foldl (fun sum m => sum + m.score) sum = sum + (placed.map Placed.score).sum := by
    intro placed
    induction placed with
    | nil => simp
    | cons x placed ih => intro sum; rw [List.foldl_cons, ih, List.map_cons, List.sum_cons, add_assoc]
  simp only [PlacedVersion.score, List.isEmpty_iff, Scale.ofNat, hfold, Nat.cast_zero, zero_add, Nat.cast_one]

end PlacedVersion

namespace Matching

variable {m : Matching ℚ} {lines : List Text}

/-- No version scores above 1. -/
theorem mean_le_one (hm : Measure m.similarity) {v : Version} {pv : PlacedVersion ℚ}
    (h : m.place lines v = .ok pv) : pv.score ≤ 1 := by
  have hle : ∀ s ∈ pv.placed.map Placed.score, s ≤ 1 := by
    intro s hs
    obtain ⟨p, hp, rfl⟩ := List.mem_map.mp hs
    exact score_le_one hm (scored_of_place h hp).1
  rw [PlacedVersion.score_eq]
  split
  · exact le_rfl
  · rename_i hne
    have hpos : (0 : ℚ) < pv.placed.length := by exact_mod_cast List.length_pos_iff.mpr hne
    refine (div_le_one hpos).mpr ?_
    simpa using sum_le_length hle

theorem mean_eq_one {pv : PlacedVersion ℚ} (h : ∀ p ∈ pv.placed, p.score = 1) : pv.score = 1 := by
  rw [PlacedVersion.score_eq]
  split
  · rfl
  · rename_i hne
    have hpos : (pv.placed.length : ℚ) ≠ 0 := by exact_mod_cast List.length_pos_iff.mpr hne |>.ne'
    rw [sum_eq_length (by simpa using h), List.length_map]
    exact div_self hpos

/-- On exact numbers, none of the placeable versions comes before the selected one. -/
theorem exists_selected (m : Matching ℚ) {s : VersionSet} {pv : PlacedVersion ℚ}
    (hpv : pv ∈ m.placeable lines s) (target : Text) :
    ∃ best, m.select lines s target = .ok best ∧ best.atLeast pv = true := by
  have hscale : (s.versions.any fun v => m.meetsOffScale lines v.records) = false := by
    simp [meetsOffScale, offScale, Scale.reaches]
  obtain ⟨best, hbest⟩ := exists_select hscale hpv target
  refine ⟨best, hbest, ?_⟩
  have hhead := (select_eq_ok.mp hbest).2
  have hmem : pv ∈ (m.placeable lines s).mergeSort PlacedVersion.atLeast := List.mem_mergeSort.mpr hpv
  have hsorted := List.pairwise_mergeSort PlacedVersion.atLeast_trans PlacedVersion.atLeast_total
    (m.placeable lines s)
  cases hsort : (m.placeable lines s).mergeSort PlacedVersion.atLeast with
  | nil => simp [hsort] at hhead
  | cons first rest =>
    rw [hsort] at hhead hmem hsorted
    obtain rfl : first = best := by simpa using hhead
    rcases List.mem_cons.mp hmem with rfl | hrest
    · exact PlacedVersion.atLeast_iff.mpr (.inr ⟨rfl, .inr ⟨rfl, le_rfl⟩⟩)
    · exact (List.pairwise_cons.mp hsorted).1 pv hrest

/-- The newest version is selected where it was recorded, with every record at its anchor. -/
theorem select_anchored (hm : m.Admissible) {s : VersionSet} {v : Version} (hv : v ∈ s.versions)
    (hnew : ∀ w ∈ s.versions, w ≠ v → w.order < v.order) (h : ∀ r ∈ v.records, Anchored lines r)
    (ha : Apart (atAnchors v.records)) (target : Text) :
    ∃ pv, m.select lines s target = .ok pv ∧ pv.version = v ∧ pv.places = atAnchors v.records ∧
      ∀ p ∈ pv.placed, p.score = 1 ∧ p.distance = 0 := by
  obtain ⟨pv, hpv, hversion, hplaces, hscored⟩ := place_anchored hm h ha
  obtain ⟨best, hbest, hleast⟩ := exists_selected m (mem_placeable.mpr ⟨v, hv, hpv⟩) target
  have hmem := List.mem_mergeSort.mp (List.mem_of_mem_head? (select_eq_ok.mp hbest).2)
  obtain ⟨w, hw, hplace⟩ := mem_placeable.mp hmem
  have hwbest := (place_feasible hplace).1
  by_cases hwv : w = v
  · obtain rfl : best = pv := by
      rw [hwv, hpv] at hplace
      exact (Except.ok.inj hplace).symm
    exact ⟨best, hbest, hversion, hplaces, hscored⟩
  · have horder := hnew w hw hwv
    have hle := mean_le_one hm.measure hplace
    have hone := mean_eq_one fun p hp => (hscored p hp).1
    rw [PlacedVersion.atLeast_iff, hwbest, hversion, hone] at hleast
    rcases hleast with hlt | ⟨-, hlt | ⟨heq, -⟩⟩
    · exact absurd hlt (not_lt.mpr hle)
    · exact absurd hlt (by omega)
    · exact absurd heq (by omega)

end Matching

end Regraft

import Regraft.Proofs.Guard.Stock
/-!
# Neighbours in a layout

Which segment stands at a place of a layout is told by the pieces next to that place: a deletion with an addition right
behind it is one segment, and every other guard is a segment of its own.

* `exists_cut`, `exists_apart`: a place is between two pieces of a layout, or inside a guard;
* `pairedFrom_append`: segments on either side of a cut are found apart, unless a deletion and an addition meet there;
* `replaced_mem_pairedFrom`, `segment_mem_pairedFrom`: the segment of a guard, told by its neighbours;
* `Spread.eq_of_covers`: one segment at most covers a line.
-/
namespace Regraft

namespace Layout

/-! ## Cuts -/

theorem height_append (a b : Layout) : height (a ++ b) = height a + height b := by
  induction a with
  | nil => simp [height]
  | cons p a ih => rw [List.cons_append, height_cons, height_cons, ih, Nat.add_assoc]

/-- A place is between two pieces of a layout, or inside a guard. -/
theorem exists_cut {layout : Layout} :
    ∀ {place : Nat}, place ≤ layout.height →
      (∃ front back, layout = front ++ back ∧ height front = place) ∨
        ∃ front g back, layout = front ++ .guard g :: back ∧ height front < place ∧
          place < height front + g.height := by
  induction layout with
  | nil =>
    intro place hplace
    exact .inl ⟨[], [], rfl, (Nat.le_zero.mp hplace).symm⟩
  | cons p layout ih =>
    intro place hplace
    rcases Nat.eq_zero_or_pos place with rfl | hpos
    · exact .inl ⟨[], p :: layout, rfl, rfl⟩
    by_cases hinside : place < p.height
    · cases p with
      | line t => exact absurd hinside (Nat.not_lt.mpr hpos)
      | guard g => exact .inr ⟨[], g, layout, rfl, hpos, by simpa [height, Piece.height] using hinside⟩
    · rw [height_cons] at hplace
      have hrest : place - p.height ≤ height layout := by omega
      rcases ih hrest with ⟨front, back, rfl, hfront⟩ | ⟨front, g, back, rfl, hlt, hgt⟩
      · refine .inl ⟨p :: front, back, rfl, ?_⟩
        rw [height_cons]
        omega
      · refine .inr ⟨p :: front, g, back, rfl, ?_, ?_⟩ <;> rw [height_cons] <;> omega

/-- Pieces with lines of their own are told apart by the number of lines in front of them. -/
theorem append_inj_of_height {a b c d : Layout} (hpos : ∀ p ∈ a ++ b, 0 < p.height) (h : a ++ b = c ++ d)
    (hheight : height a = height c) : a = c ∧ b = d := by
  have hnil {e : Layout} (he : ∀ p ∈ e, p ∈ a ++ b) (hzero : height e = 0) : e = [] := by
    cases e with
    | nil => rfl
    | cons p e =>
      rw [height_cons] at hzero
      have := hpos p (he p List.mem_cons_self)
      omega
  rcases List.append_eq_append_iff.mp h with ⟨e, rfl, rfl⟩ | ⟨e, rfl, rfl⟩
  · obtain rfl := @hnil e (by simp +contextual) (by rw [height_append] at hheight; omega)
    simp
  · obtain rfl := @hnil e (by simp +contextual) (by rw [height_append] at hheight; omega)
    simp

/-! ## Segments on either side of a cut -/

/-- A deletion and an addition do not meet where two layouts are joined. -/
def Apart (front back : Layout) : Prop :=
  ∀ d, front.getLast? = some (.guard d) → d.deletion = true → ∀ a, back.head? = some (.guard a) → a.deletion = true

theorem apart_of_head {front back : Layout} (h : ∀ a, back.head? = some (.guard a) → a.deletion = true) :
    Apart front back := fun _ _ _ => h

theorem apart_of_addition {g : Guard} {back : Layout} (h : g.deletion = false) : Apart [.guard g] back := by
  intro d hlast hd
  obtain rfl : g = d := by simpa using hlast
  simp [h] at hd

/-- Lines between two layouts may be counted to either of them. -/
theorem Apart.behind_lines {front back : Layout} {lines : List Text} (h : Apart front (lines.map .line ++ back)) :
    Apart (front ++ lines.map .line) back := by
  rcases List.eq_nil_or_concat lines with rfl | ⟨lines, t, rfl⟩
  · simpa using h
  · intro d hlast
    simp [List.getLast?_append] at hlast

theorem Apart.tail {p : Piece} {front back : Layout} (h : Apart (p :: front) back) : Apart front back := by
  intro d hd
  refine h d ?_
  rw [List.getLast?_cons, hd]
  rfl

theorem pairedFrom_cons_guard {g : Guard} {rest : Layout} (h : Apart [.guard g] rest) (i : Nat) :
    pairedFrom i (.guard g :: rest) = g.segment i :: pairedFrom (i + g.height) rest := by
  cases rest with
  | nil => rfl
  | cons p rest =>
    cases p with
    | line t => rfl
    | guard a =>
      have hapart : ¬ (g.deletion && !a.deletion) = true := by
        simpa using fun hd => h g rfl hd a rfl
      rw [pairedFrom, if_neg hapart]

/-- Segments on either side of a cut are found apart, unless a deletion and an addition meet there. -/
theorem pairedFrom_append {front back : Layout} :
    ∀ i, Apart front back →
      pairedFrom i (front ++ back) = pairedFrom i front ++ pairedFrom (i + front.height) back := by
  intro i
  fun_induction pairedFrom i front with
  | case1 i => exact fun _ => rfl
  | case2 i t rest ih =>
    intro h
    rw [List.cons_append, pairedFrom, ih h.tail, height_cons, ← Nat.add_assoc]
    rfl
  | case3 i d a rest hpair ih =>
    intro h
    rw [List.cons_append, List.cons_append, pairedFrom, if_pos hpair, ih h.tail.tail, height_cons, height_cons,
      ← Nat.add_assoc, ← Nat.add_assoc]
    rfl
  | case4 i d a rest hpair ih =>
    intro h
    have hrest := ih h.tail
    rw [List.cons_append] at hrest
    rw [List.cons_append, List.cons_append, pairedFrom, if_neg hpair, hrest, height_cons (.guard d), ← Nat.add_assoc]
    rfl
  | case5 i g rest hno ih =>
    intro h
    have hguard : Apart [.guard g] (rest ++ back) := by
      cases rest with
      | nil => exact h
      | cons p rest =>
        cases p with
        | line t => exact apart_of_head (by simp)
        | guard a => exact absurd rfl (hno a rest)
    rw [List.cons_append, pairedFrom_cons_guard hguard, ih h.tail, height_cons, ← Nat.add_assoc]
    rfl

/-- A deletion with an addition right behind it is one segment. -/
theorem replaced_mem_pairedFrom {d a : Guard} (hd : d.deletion = true) (ha : a.deletion = false)
    (front back : Layout) : d.replaced a front.height ∈ pairedFrom 0 (front ++ .guard d :: .guard a :: back) := by
  rw [pairedFrom_append 0 (apart_of_head (by simpa using hd)), Nat.zero_add, pairedFrom, if_pos (by simp [hd, ha])]
  exact List.mem_append_right _ List.mem_cons_self

/-- A guard that meets no other one that it pairs with is a segment of its own. -/
theorem segment_mem_pairedFrom {front back : Layout} {g : Guard} (hfront : Apart front [.guard g])
    (hback : Apart [.guard g] back) : g.segment front.height ∈ pairedFrom 0 (front ++ .guard g :: back) := by
  have hjoin : Apart front (.guard g :: back) := fun d hlast hd a ha => hfront d hlast hd a (by simpa using ha)
  rw [pairedFrom_append 0 hjoin, Nat.zero_add, pairedFrom_cons_guard hback]
  exact List.mem_append_right _ List.mem_cons_self

theorem exists_of_mem_segmentsFrom {layout : Layout} {s : Segment} :
    ∀ {i : Nat}, s ∈ layout.segmentsFrom i →
      ∃ front g back, layout = front ++ .guard g :: back ∧ s = g.segment (i + height front) := by
  induction layout with
  | nil =>
    intro i h
    cases h
  | cons p layout ih =>
    intro i h
    cases p with
    | line t =>
      obtain ⟨front, g, back, rfl, rfl⟩ := ih h
      exact ⟨.line t :: front, g, back, rfl, by rw [height_cons, ← Nat.add_assoc]; rfl⟩
    | guard g =>
      rcases List.mem_cons.mp h with rfl | h
      · exact ⟨[], g, layout, rfl, rfl⟩
      · obtain ⟨front, g', back, rfl, rfl⟩ := ih h
        exact ⟨.guard g :: front, g', back, rfl, by rw [height_cons, ← Nat.add_assoc]; rfl⟩

theorem mem_segmentsFrom_of_pairedFrom {layout : Layout} {s : Segment} (hs : s.replacement = none) :
    ∀ i, s ∈ pairedFrom i layout → s ∈ layout.segmentsFrom i := by
  intro i
  fun_induction pairedFrom i layout with
  | case1 i => exact id
  | case2 i t rest ih => exact ih
  | case3 i d a rest hpair ih =>
    intro h
    rcases List.mem_cons.mp h with rfl | h
    · cases hs
    · exact List.mem_cons_of_mem _ (List.mem_cons_of_mem _ (ih h))
  | case4 i d a rest hpair ih =>
    exact fun h => List.mem_cons.mpr ((List.mem_cons.mp h).imp_right ih)
  | case5 i g rest hno ih =>
    exact fun h => List.mem_cons.mpr ((List.mem_cons.mp h).imp_right ih)

/-- A segment without a replacement is that of one guard. -/
theorem exists_of_mem_pairedFrom {layout : Layout} {s : Segment} (h : s ∈ pairedFrom 0 layout)
    (hs : s.replacement = none) :
    ∃ front g back, layout = front ++ .guard g :: back ∧ s = g.segment (height front) := by
  obtain ⟨front, g, back, hlayout, hsegment⟩ :=
    exists_of_mem_segmentsFrom (mem_segmentsFrom_of_pairedFrom hs 0 h)
  exact ⟨front, g, back, hlayout, Nat.zero_add (height front) ▸ hsegment⟩

/-- Where layouts are not apart, a deletion and an addition meet. -/
theorem exists_of_not_apart {front back : Layout} (h : ¬Apart front back) :
    ∃ front' d a back', front = front' ++ [.guard d] ∧ back = .guard a :: back' ∧ d.deletion = true ∧
      a.deletion = false := by
  simp only [Apart, Classical.not_forall] at h
  obtain ⟨d, hlast, hd, a, hhead, ha⟩ := h
  obtain ⟨front', rfl⟩ := List.getLast?_eq_some_iff.mp hlast
  obtain ⟨back', rfl⟩ := List.head?_eq_some_iff.mp hhead
  exact ⟨front', d, a, back', rfl, rfl, hd, by simpa using ha⟩

/-- The lines of a guard are lines of one segment. -/
theorem exists_around (front : Layout) (g : Guard) (back : Layout) :
    ∃ s ∈ pairedFrom 0 (front ++ .guard g :: back), s.start ≤ height front ∧ height front + g.height ≤ s.stop := by
  by_cases hfront : Apart front [.guard g]
  · by_cases hback : Apart [.guard g] back
    · exact ⟨_, segment_mem_pairedFrom hfront hback, (g.segment_start _).le, (g.segment_stop _).ge⟩
    · obtain ⟨front', d, a, back', hd, rfl, hdel, hadd⟩ := exists_of_not_apart hback
      obtain ⟨rfl, hd⟩ := List.append_eq_singleton_iff.mp hd.symm |>.resolve_right (by simp)
      obtain rfl : d = g := by simpa using hd.symm
      exact ⟨_, replaced_mem_pairedFrom hdel hadd front back', le_rfl, Nat.le_add_right _ _⟩
  · obtain ⟨front', d, a, back', rfl, ha, hdel, hadd⟩ := exists_of_not_apart hfront
    obtain ⟨ha, rfl⟩ := List.cons.inj ha
    obtain rfl : g = a := by simpa using ha
    have hmem := replaced_mem_pairedFrom hdel hadd front' back
    rw [List.append_assoc, List.singleton_append]
    refine ⟨_, hmem, ?_, ?_⟩
    · rw [height_append]
      exact Nat.le_add_right _ _
    · rw [height_append]
      exact le_rfl

/-- Layouts that are not apart are joined by a segment. -/
theorem exists_across {front back : Layout} (hpos : ∀ p ∈ front ++ back, 0 < p.height) (h : ¬Apart front back) :
    ∃ s ∈ pairedFrom 0 (front ++ back), s.start < height front ∧ height front < s.stop := by
  obtain ⟨front, d, a, back, rfl, rfl, hd, ha⟩ := exists_of_not_apart h
  have hmem := replaced_mem_pairedFrom hd ha front back
  have hdpos : 0 < d.height := hpos (.guard d) (by simp)
  have hapos : 0 < a.height := hpos (.guard a) (by simp)
  have hheight : height (front ++ [.guard d]) = height front + d.height := by
    rw [height_append]
    rfl
  rw [List.append_assoc, List.singleton_append, hheight]
  exact ⟨_, hmem, Nat.lt_add_of_pos_right hdpos, Nat.lt_add_of_pos_right hapos⟩

/-- A place that is not within a segment is a cut that sets layouts apart. -/
theorem exists_apart {layout : Layout} {place : Nat} (hpos : ∀ p ∈ layout, 0 < p.height)
    (hplace : place ≤ layout.height) (hout : ∀ s ∈ pairedFrom 0 layout, ¬(s.start < place ∧ place < s.stop)) :
    ∃ front back, layout = front ++ back ∧ height front = place ∧ Apart front back := by
  rcases exists_cut hplace with ⟨front, back, rfl, rfl⟩ | ⟨front, g, back, rfl, hlt, hgt⟩
  · refine ⟨front, back, rfl, rfl, ?_⟩
    by_contra hmeets
    obtain ⟨s, hs, hwithin⟩ := exists_across hpos hmeets
    exact hout s hs hwithin
  · obtain ⟨s, hs, hstart, hstop⟩ := exists_around front g back
    exact absurd ⟨by omega, by omega⟩ (hout s hs)

/-! ## Neighbours of a cut -/

section
variable {front back : Layout} {g : Guard}

/-- A deletion without a replacement stops at a cut where an addition would not be apart from it. -/
theorem exists_stop_iff (hpos : ∀ p ∈ front ++ back, 0 < p.height) (h : Apart front back) (hg : g.deletion = false) :
    (∃ s ∈ pairedFrom 0 (front ++ back), s.kind = .deletion ∧ s.replacement = none ∧ s.stop = height front) ↔
      ¬Apart front [.guard g] := by
  constructor
  · rintro ⟨s, hs, hkind, hnone, hstop⟩ hapart
    obtain ⟨front', d, back', hlayout, rfl⟩ := exists_of_mem_pairedFrom hs hnone
    have hheight : height (front' ++ [.guard d]) = height front := by
      rw [height_append, ← hstop, d.segment_stop]
      rfl
    rw [List.append_cons] at hlayout
    obtain ⟨rfl, -⟩ := append_inj_of_height hpos hlayout hheight.symm
    have hd : d.deletion = true := by
      by_contra hno
      rw [Guard.segment, if_neg hno] at hkind
      cases hkind
    have := hapart d (by simp) hd g rfl
    simp [hg] at this
  · intro hmeets
    obtain ⟨front', d, a, -, rfl, -, hd, -⟩ := exists_of_not_apart hmeets
    have hback : Apart [.guard d] back := fun e he => h e (by simpa using he)
    have hfront : Apart front' [.guard d] := apart_of_head (by simpa using hd)
    have hmem := segment_mem_pairedFrom hfront hback
    rw [List.append_assoc, List.singleton_append]
    refine ⟨_, hmem, ?_, ?_, ?_⟩
    · simp [Guard.segment, hd, Segment.kind]
    · simp [Guard.segment, hd, Segment.replacement]
    · rw [d.segment_stop, height_append]
      rfl

/-- An addition that starts at a cut, and is apart from what is in front of it, is the first guard behind it. -/
theorem exists_start_iff (hpos : ∀ p ∈ front ++ back, 0 < p.height) (h : Apart front back)
    (P : List Text → Prop) :
    (∃ s ∈ pairedFrom 0 (front ++ back), s.kind = .addition ∧ s.start = height front ∧ P s.inserted) ↔
      ∃ a back', back = .guard a :: back' ∧ a.deletion = false ∧ P a.lines := by
  constructor
  · rintro ⟨s, hs, hkind, hstart, hP⟩
    have hnone : s.replacement = none := by
      cases s with
      | addition => rfl
      | deletion => cases hkind
    obtain ⟨front', a, back', hlayout, rfl⟩ := exists_of_mem_pairedFrom hs hnone
    rw [a.segment_start] at hstart
    obtain ⟨rfl, rfl⟩ := append_inj_of_height hpos hlayout hstart.symm
    cases ha : a.deletion with
    | true => simp [Guard.segment, ha, Segment.kind] at hkind
    | false =>
      refine ⟨a, back', rfl, ha, ?_⟩
      simpa [Guard.segment, ha, Segment.inserted, Guard.guarded] using hP
  · rintro ⟨a, back', rfl, ha, hP⟩
    have hfront : Apart front [.guard a] := fun d hlast hd b hb => h d hlast hd b (by simpa using hb)
    refine ⟨_, segment_mem_pairedFrom hfront (apart_of_addition ha), ?_, a.segment_start _, ?_⟩
    · simp [Guard.segment, ha, Segment.kind]
    · simpa [Guard.segment, ha, Segment.inserted, Guard.guarded] using hP

end

end Layout

/-! ## The segment at a line -/

theorem Segment.covers_iff {s : Segment} {j : Nat} : s.covers j = true ↔ s.start ≤ j ∧ j < s.stop := by
  simp [Segment.covers]

theorem Spread.le_start {count : Nat} {segments : List Segment} :
    ∀ {cursor : Nat}, Spread count cursor segments → ∀ s ∈ segments, cursor ≤ s.start := by
  induction segments with
  | nil => simp
  | cons s rest ih =>
    intro cursor h
    exact List.forall_mem_cons.mpr ⟨h.1, fun t ht => h.1.trans (h.2.1.trans (ih h.2.2 t ht))⟩

/-- One segment at most covers a line. -/
theorem Spread.eq_of_covers {count : Nat} {segments : List Segment} {s t : Segment} {j : Nat} :
    ∀ {cursor : Nat}, Spread count cursor segments → s ∈ segments → t ∈ segments → s.covers j = true →
      t.covers j = true → s = t := by
  induction segments with
  | nil => simp
  | cons u rest ih =>
    intro cursor h hs ht hsj htj
    have hbehind {v : Segment} (hv : v ∈ rest) (hvj : v.covers j = true) (huj : u.covers j = true) : False := by
      have hstart := h.2.2.le_start v hv
      rw [Segment.covers_iff] at hvj huj
      omega
    rcases List.mem_cons.mp hs with hsu | hs <;> rcases List.mem_cons.mp ht with htu | ht
    · rw [hsu, htu]
    · exact (hbehind ht htj (hsu ▸ hsj)).elim
    · exact (hbehind hs hsj (htu ▸ htj)).elim
    · exact ih h.2.2 hs ht hsj htj

/-- What is asked of the segments that cover a line is asked of one. -/
theorem Spread.any_covers {count cursor : Nat} {segments : List Segment} (h : Spread count cursor segments)
    {s : Segment} (hs : s ∈ segments) {j : Nat} (hj : s.covers j = true) (P : Segment → Bool) :
    segments.any (fun t => t.covers j && P t) = P s := by
  rw [Bool.eq_iff_iff, List.any_eq_true]
  constructor
  · rintro ⟨t, ht, htj⟩
    rw [Bool.and_eq_true] at htj
    rw [h.eq_of_covers hs ht hj htj.1]
    exact htj.2
  · exact fun hP => ⟨s, hs, by rw [hj, hP]; rfl⟩

end Regraft

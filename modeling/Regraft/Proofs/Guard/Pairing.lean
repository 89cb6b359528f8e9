import Regraft.Guard.Stock
import Regraft.Proofs.Guard.Layout
/-!
# Deletions and their replacements

A deletion takes the addition right behind it as its replacement. On a layout this can be said without a look at
the numbers of lines, and the segments that it makes stand one behind the other.

* `pairReplacements_segmentsFrom`: pairing the segments of a layout by their numbers joins its neighbours;
* `spread_pairedFrom`, `tight_pairedFrom`: the segments stand one behind the other, each with its stock;
* `flatMap_span_pair`: pairing leaves the lines that the segments cover.
-/
namespace Regraft

/-! ## Segments one behind the other -/

/-- Segments in the order of a file of so many lines, from the cursor on. -/
def Spread (count : Nat) : Nat → List Segment → Prop
  | cursor, [] => cursor ≤ count
  | cursor, s :: rest => cursor ≤ s.start ∧ s.start ≤ s.stop ∧ Spread count s.stop rest

theorem Spread.le {count : Nat} {segments : List Segment} :
    ∀ {cursor : Nat}, Spread count cursor segments → cursor ≤ count := by
  induction segments with
  | nil => exact fun h => h
  | cons s rest ih =>
    intro cursor h
    exact h.1.trans (h.2.1.trans (ih h.2.2))

theorem Spread.stop_le {count : Nat} {segments : List Segment} :
    ∀ {cursor : Nat}, Spread count cursor segments → ∀ s ∈ segments, s.stop ≤ count := by
  induction segments with
  | nil => simp
  | cons s rest ih =>
    intro cursor h
    exact List.forall_mem_cons.mpr ⟨h.2.2.le, ih h.2.2⟩

/-- The stock of a segment takes no more lines than the segment, and the blank lines are among it. -/
structure Segment.IsTight (s : Segment) : Prop where
  stock : s.start + s.stock.length ≤ s.stop
  blanks : ∀ i ∈ s.blankStock, i < s.stock.length

theorem Segment.mem_blankOffsets {lines : List Text} {i : Nat} (h : i ∈ blankOffsets lines) : i < lines.length :=
  List.mem_range.mp (List.mem_filter.mp h).1

namespace Guard

theorem length_le_height (g : Guard) : g.lines.length ≤ g.height := by
  unfold height
  split <;> omega

theorem tight_segment (g : Guard) (i : Nat) : (g.segment i).IsTight := by
  have hlines := g.length_le_height
  unfold segment
  split
  · refine ⟨?_, fun j hj => ?_⟩
    · simpa [Segment.start, Segment.stop, Segment.stock, Segment.guarded, guarded] using hlines
    · simpa [Segment.stock] using Segment.mem_blankOffsets hj
  · exact ⟨Nat.le_add_right _ _, fun j hj => by cases hj⟩

/-- The segment of a deletion with the addition right behind it. -/
def replaced (d a : Guard) (start : Nat) : Segment :=
  .deletion (d.guarded start) (d.lines.map Segment.restore) (Segment.blankOffsets d.lines)
    (some (a.guarded (start + d.height)))

theorem tight_replaced (d a : Guard) (i : Nat) : (d.replaced a i).IsTight := by
  have hlines := d.length_le_height
  refine ⟨?_, fun j hj => ?_⟩
  · simp only [replaced, Segment.start, Segment.stop, Segment.stock, Segment.guarded, guarded, List.length_map]
    omega
  · simpa [replaced, Segment.stock] using Segment.mem_blankOffsets hj

end Guard

/-! ## Neighbours -/

namespace Layout

/-- The segments of a layout whose first line has this number, where a deletion takes the addition right behind it
as its replacement. -/
def pairedFrom : Nat → Layout → List Segment
  | _, [] => []
  | i, .line _ :: rest => pairedFrom (i + 1) rest
  | i, .guard d :: .guard a :: rest =>
    if d.deletion && !a.deletion then d.replaced a i :: pairedFrom (i + d.height + a.height) rest
    else d.segment i :: pairedFrom (i + d.height) (.guard a :: rest)
  | i, .guard g :: rest => g.segment i :: pairedFrom (i + g.height) rest

theorem le_start {layout : Layout} : ∀ {i : Nat}, ∀ s ∈ layout.segmentsFrom i, i ≤ s.start := by
  induction layout with
  | nil => simp [segmentsFrom]
  | cons p layout ih =>
    intro i s hs
    cases p with
    | line t => exact (Nat.le_succ i).trans (ih s hs)
    | guard g =>
      rcases List.mem_cons.mp hs with rfl | hs
      · exact (g.segment_start i).ge
      · exact (Nat.le_add_right i g.height).trans (ih s hs)

theorem start_le_stop {layout : Layout} : ∀ {i : Nat}, ∀ s ∈ layout.segmentsFrom i, s.start ≤ s.stop := by
  induction layout with
  | nil => simp [segmentsFrom]
  | cons p layout ih =>
    intro i s hs
    cases p with
    | line t => exact ih s hs
    | guard g =>
      rcases List.mem_cons.mp hs with rfl | hs
      · simp [g.segment_start, g.segment_stop]
      · exact ih s hs

/-- A segment with a line between it and the next one stays as it is. -/
theorem pairReplacements_cons_of_apart {s : Segment} {rest : List Segment} (h : ∀ t ∈ rest, s.stop < t.start) :
    Segment.pairReplacements (s :: rest) = s :: Segment.pairReplacements rest := by
  cases s with
  | addition g => rfl
  | deletion d stock blanks replacement =>
    cases replacement with
    | some r => rfl
    | none =>
      cases rest with
      | nil => rfl
      | cons t rest =>
        have hlt := h t List.mem_cons_self
        cases t with
        | deletion g => rfl
        | addition a => exact if_neg (show ¬a.start = d.stop from hlt.ne')

/-- Pairing the segments of a layout by their numbers joins its neighbours. -/
theorem pairReplacements_segmentsFrom (i : Nat) (layout : Layout) :
    Segment.pairReplacements (layout.segmentsFrom i) = layout.pairedFrom i := by
  fun_induction pairedFrom i layout with
  | case1 i => rfl
  | case2 i t rest ih => exact ih
  | case3 i d a rest hpair ih =>
    obtain ⟨hd, ha⟩ : d.deletion = true ∧ a.deletion = false := by simpa using hpair
    rw [← ih]
    simp [segmentsFrom, Guard.segment, hd, ha, Segment.pairReplacements, Guard.replaced, Guard.guarded]
  | case4 i d a rest hpair ih =>
    have hpair : d.deletion = true → a.deletion = true := by simpa using hpair
    rw [← ih]
    cases hd : d.deletion with
    | true => simp [segmentsFrom, Guard.segment, hd, hpair hd, Segment.pairReplacements]
    | false => simp [segmentsFrom, Guard.segment, hd, Segment.pairReplacements]
  | case5 i g rest hno ih =>
    rw [← ih, segmentsFrom]
    refine pairReplacements_cons_of_apart fun t ht => ?_
    rw [g.segment_stop]
    cases rest with
    | nil => cases ht
    | cons p rest =>
      cases p with
      | line text => exact le_start t ht
      | guard a => exact absurd rfl (hno a rest)

theorem spread_pairedFrom (i : Nat) (layout : Layout) :
    ∀ {cursor : Nat}, cursor ≤ i → Spread (i + layout.height) cursor (layout.pairedFrom i) := by
  fun_induction pairedFrom i layout with
  | case1 i => exact fun h => h
  | case2 i t rest ih =>
    intro cursor h
    have hrest := ih (h.trans (Nat.le_succ i))
    rwa [Nat.add_assoc] at hrest
  | case3 i d a rest hpair ih =>
    intro cursor h
    have hrest := ih (le_refl (i + d.height + a.height))
    have hstop : (d.replaced a i).stop = i + d.height + a.height := rfl
    refine ⟨h, hstop ▸ (Nat.le_add_right i _).trans (Nat.le_add_right _ _), ?_⟩
    simpa only [hstop, height_cons, Piece.height, Nat.add_assoc] using hrest
  | case4 i d a rest hpair ih =>
    intro cursor h
    have hrest := ih (le_refl (i + d.height))
    refine ⟨(d.segment_start i).symm ▸ h, ?_, ?_⟩
    · simp [d.segment_start, d.segment_stop]
    · simpa only [d.segment_stop, height_cons, Piece.height, Nat.add_assoc] using hrest
  | case5 i g rest hno ih =>
    intro cursor h
    have hrest := ih (le_refl (i + g.height))
    refine ⟨(g.segment_start i).symm ▸ h, ?_, ?_⟩
    · simp [g.segment_start, g.segment_stop]
    · simpa only [g.segment_stop, height_cons, Piece.height, Nat.add_assoc] using hrest

theorem tight_pairedFrom (i : Nat) (layout : Layout) : ∀ s ∈ layout.pairedFrom i, s.IsTight := by
  fun_induction pairedFrom i layout with
  | case1 i => simp
  | case2 i t rest ih => exact ih
  | case3 i d a rest hpair ih => exact List.forall_mem_cons.mpr ⟨d.tight_replaced a i, ih⟩
  | case4 i d a rest hpair ih => exact List.forall_mem_cons.mpr ⟨d.tight_segment i, ih⟩
  | case5 i g rest hno ih => exact List.forall_mem_cons.mpr ⟨g.tight_segment i, ih⟩

end Layout

/-! ## Lines of segments -/

theorem span_self (lines : List Text) (i : Nat) : span lines i i = [] := by
  simp [span]

theorem span_append {i j k : Nat} (lines : List Text) (hij : i ≤ j) (hjk : j ≤ k) :
    span lines i j ++ span lines j k = span lines i k := by
  have htake : lines.take j = (lines.take k).take j := by rw [List.take_take, Nat.min_eq_left hjk]
  have hdrop : (lines.take k).drop j = ((lines.take k).drop i).drop (j - i) := by
    rw [List.drop_drop, Nat.add_sub_cancel' hij]
  rw [span, span, span, htake, hdrop, List.drop_take, List.take_append_drop]

/-- Pairing leaves the lines that the segments cover. -/
theorem flatMap_span_pair (lines : List Text) {segments : List Segment} (h : ∀ s ∈ segments, s.start ≤ s.stop) :
    (Segment.pairReplacements segments).flatMap (fun s => span lines s.start s.stop) =
      segments.flatMap fun s => span lines s.start s.stop := by
  fun_induction Segment.pairReplacements segments with
  | case1 d stock blanks a rest heq ih =>
    obtain ⟨hd, ha, hrest⟩ : d.start ≤ d.stop ∧ a.start ≤ a.stop ∧ ∀ s ∈ rest, s.start ≤ s.stop := by
      simpa [Segment.start, Segment.stop, Segment.guarded] using h
    have hjoin : span lines d.start d.stop ++ span lines a.start a.stop = span lines d.start a.stop :=
      heq ▸ span_append lines (heq ▸ hd) ha
    simp only [List.flatMap_cons, ih hrest, ← List.append_assoc]
    exact congrArg (· ++ _) hjoin.symm
  | case2 d stock blanks a rest hne ih =>
    rw [List.flatMap_cons, List.flatMap_cons, ih fun s hs => h s (List.mem_cons_of_mem _ hs)]
  | case3 s rest hno ih =>
    rw [List.flatMap_cons, List.flatMap_cons, ih fun s hs => h s (List.mem_cons_of_mem _ hs)]
  | case4 => rfl

end Regraft

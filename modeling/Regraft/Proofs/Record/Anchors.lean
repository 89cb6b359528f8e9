import Regraft.Proofs.Guard.Stock
import Regraft.Proofs.Match.Anchor
import Regraft.Record.Build
/-!
# Records at their anchors

The records of a file against the stock lines of that file.

* `spread_of_parse`: the segments of a file stand one behind the other within it, paired or not;
* `anchored_buildRecords`: each record has its anchor, its stock and its context in the stock lines, and the
  records are apart there;
* `numbers_buildRecords`: the numbers in the records are those of lines of the file.
-/
namespace Regraft

/-! ## Anchors, stock and context -/

section
variable (s : Segment) (path : Text) (preceding following : List Text) (anchor : Nat)

theorem Segment.record_anchor : (s.record path preceding following anchor).anchor = (anchor : Int) := by
  cases s <;> rfl

theorem Segment.record_preceding : (s.record path preceding following anchor).preceding = preceding := by
  cases s <;> rfl

theorem Segment.record_following : (s.record path preceding following anchor).following = following := by
  cases s <;> rfl

theorem Segment.record_extent : (s.record path preceding following anchor).extent = s.stock.length := by
  cases s <;> rfl

end

theorem extentFits_record {stock : List Text} {s : Segment} {anchor : Nat}
    (h : (stock.drop anchor).take s.stock.length = s.stock) (path : Text) (preceding following : List Text) :
    Matching.extentFits stock anchor (s.record path preceding following anchor) = true := by
  cases s with
  | addition g => rfl
  | deletion g lines blanks replacement =>
    simp only [Matching.extentFits, Segment.record, Record.extent]
    exact decide_eq_true h

/-- The record of a segment whose stock stands at the anchor is anchored, with any window of context. -/
theorem anchored_record {stock : List Text} {s : Segment} {anchor : Nat} (ha : anchor ≤ stock.length)
    (h : (stock.drop anchor).take s.stock.length = s.stock) (path : Text) (lower upper : Nat) :
    Anchored stock (s.record path (span stock lower anchor) (span stock (anchor + s.stock.length) upper) anchor) := by
  have hanchor := s.record_anchor path (span stock lower anchor) (span stock (anchor + s.stock.length) upper) anchor
  refine ⟨?_, ?_, ?_, ?_, ?_⟩
  · rw [hanchor]
    exact Int.natCast_nonneg _
  · rw [hanchor]
    exact ha
  · rw [hanchor]
    exact extentFits_record h path _ _
  · rw [hanchor, s.record_preceding]
    simp only [span, List.length_drop, List.length_take, Int.toNat_natCast, Nat.min_eq_left ha]
    by_cases hl : lower ≤ anchor
    · congr 1
      omega
    · rw [List.drop_of_length_le (by simp; omega), List.drop_of_length_le (by simp; omega)]
  · rw [hanchor, s.record_following, s.record_extent, Int.toNat_natCast, span, List.drop_take]
    exact List.take_prefix _ _

theorem anchored_recordsFrom {lines : List Text} {path : Text} {context : Nat} {segments : List Segment} :
    ∀ {cursor : Nat} {before stock : List Text}, Spread lines.length cursor segments →
      stock = before ++ stockLinesFrom lines cursor segments →
      let rs := recordsFrom stock path context before.length
        (segments.zip (anchorsFrom cursor before.length segments))
      (∀ r ∈ rs, Anchored stock r) ∧ Apart (atAnchors rs) ∧ ∀ x ∈ (atAnchors rs).head?, before.length ≤ x.1 := by
  induction segments with
  | nil =>
    intro cursor before stock _ _
    exact ⟨by simp [recordsFrom, anchorsFrom], List.isChain_nil, by simp [recordsFrom, anchorsFrom, atAnchors]⟩
  | cons s rest ih =>
    intro cursor before stock h hstock
    obtain ⟨hstart, hstop, hrest⟩ := h
    have hle := hrest.le
    let anchor := before.length + (s.start - cursor)
    have hspan : (span lines cursor s.start).length = s.start - cursor := by
      simp only [span, List.length_drop, List.length_take]
      omega
    have hbefore : (before ++ span lines cursor s.start).length = anchor := by
      rw [List.length_append, hspan]
    have hsplit : stock = (before ++ span lines cursor s.start) ++ (s.stock ++ stockLinesFrom lines s.stop rest) := by
      simp only [hstock, stockLinesFrom, List.append_assoc]
    have htake : (stock.drop anchor).take s.stock.length = s.stock := by
      rw [hsplit, ← hbefore, List.drop_left, List.take_left]
    have heq : stock = before ++ span lines cursor s.start ++ s.stock ++ stockLinesFrom lines s.stop rest := by
      rw [hsplit, List.append_assoc (before ++ span lines cursor s.start)]
    have hnext := ih hrest heq
    have hcount : (before ++ span lines cursor s.start ++ s.stock).length = anchor + s.stock.length := by
      rw [List.length_append, hbefore]
    rw [hcount] at hnext
    obtain ⟨hanchored, hapart, hhead⟩ := hnext
    refine ⟨?_, ?_, ?_⟩
    · intro r hr
      rcases List.mem_cons.mp hr with rfl | hr
      · refine anchored_record ?_ htake path _ _
        rw [hsplit, List.length_append, hbefore]
        exact Nat.le_add_right _ _
      · exact hanchored r hr
    · refine List.isChain_cons.mpr ⟨fun y hy => ?_, hapart⟩
      show (Segment.record _ _ _ _ s).anchor.toNat + (Segment.record _ _ _ _ s).extent ≤ y.1
      rw [s.record_anchor, s.record_extent, Int.toNat_natCast]
      exact hhead y hy
    · intro x hx
      cases hx
      show before.length ≤ (Segment.record _ _ _ _ s).anchor.toNat
      rw [s.record_anchor, Int.toNat_natCast]
      exact Nat.le_add_right _ _

/-- The records of a file are anchored in its stock lines, apart from each other. -/
theorem anchored_buildRecords {lines : List Text} {segments : List Segment} (h : Spread lines.length 0 segments)
    (path : Text) (context : Nat) :
    (∀ r ∈ buildRecords lines segments path context, Anchored (stockLines lines segments) r) ∧
      Apart (atAnchors (buildRecords lines segments path context)) := by
  have heq : stockLines lines segments = [] ++ stockLinesFrom lines 0 segments := rfl
  obtain ⟨hanchored, hapart, -⟩ := @anchored_recordsFrom lines path context segments 0 [] _ h heq
  exact ⟨hanchored, hapart⟩

/-! ## Numbers of lines -/

/-- A file has no fewer lines than stock lines. -/
theorem length_stockLinesFrom_le {lines : List Text} {segments : List Segment} (htight : ∀ s ∈ segments, s.IsTight) :
    ∀ {cursor : Nat}, Spread lines.length cursor segments →
      cursor + (stockLinesFrom lines cursor segments).length ≤ lines.length := by
  induction segments with
  | nil =>
    intro cursor h
    have hcursor : cursor ≤ lines.length := h
    rw [stockLinesFrom, List.length_drop]
    omega
  | cons s rest ih =>
    intro cursor h
    obtain ⟨hstart, -, hrest⟩ := h
    obtain ⟨hs, hothers⟩ := List.forall_mem_cons.mp htight
    have hstock := hs.stock
    have hbehind := ih hothers hrest
    simp only [stockLinesFrom, List.length_append, span, List.length_drop, List.length_take]
    omega

theorem blankStock_recordsFrom {stock : List Text} {path : Text} {context : Nat} (pairs : List (Segment × Nat)) :
    ∀ {lower : Nat}, ∀ r ∈ recordsFrom stock path context lower pairs,
      ∃ x ∈ pairs, r.blankStock = x.1.blankStock.map Int.ofNat := by
  induction pairs with
  | nil => simp [recordsFrom]
  | cons x pairs ih =>
    intro lower r hr
    rcases List.mem_cons.mp hr with rfl | hr
    · refine ⟨x, List.mem_cons_self, ?_⟩
      cases x.1 <;> rfl
    · obtain ⟨y, hy, hblanks⟩ := ih r hr
      exact ⟨y, List.mem_cons_of_mem _ hy, hblanks⟩

/-- The numbers in the records of a file are those of its lines. -/
theorem numbers_buildRecords {tag : Tag} {lines : List Text} {segments : List Segment}
    (h : Segment.parse tag lines = .ok segments) (path : Text) (context : Nat) :
    ∀ r ∈ buildRecords lines segments path context, (∃ n ≤ lines.length, r.anchor = (n : Nat)) ∧
      ∀ i ∈ r.blankStock, ∃ n ≤ lines.length, i = (n : Nat) := by
  obtain ⟨hspread, htight⟩ := spread_of_parse h
  have hstock : (stockLines lines segments).length ≤ lines.length := by
    have := length_stockLinesFrom_le htight hspread
    rw [stockLines]
    omega
  intro r hr
  have hanchored := (anchored_buildRecords hspread path context).1 r hr
  refine ⟨⟨r.anchor.toNat, hanchored.inside.trans hstock, (Int.toNat_of_nonneg hanchored.nonneg).symm⟩, ?_⟩
  intro i hi
  obtain ⟨x, hx, hblanks⟩ := blankStock_recordsFrom _ r hr
  obtain ⟨n, hn, rfl⟩ := List.mem_map.mp (hblanks ▸ hi)
  have hmem := (List.of_mem_zip hx).1
  have htaken := htight x.1 hmem
  have hn := htaken.blanks n hn
  have hstop := hspread.stop_le x.1 hmem
  have hfit := htaken.stock
  exact ⟨n, by omega, rfl⟩

end Regraft

import Regraft.Splice.Apply
import Regraft.Proofs.Guard.Grammar
/-!
# The stock view of a layout

What clearing a file comes to, in terms of its layout. Pairing a deletion with the addition behind it changes
neither the stock lines nor their sources, so both can be read off the guards one by one.

* `stockLinesFrom_pair`, `stockSourcesFrom_pair`: pairing makes no difference;
* `clearLines_of_reads`: clearing lines that read as a layout gives the stock lines and the sources of the layout.
-/
namespace Regraft

/-! ## Pairing -/

theorem stockLinesFrom_pair (lines : List Text) (segments : List Segment) :
    ∀ cursor, stockLinesFrom lines cursor (Segment.pairReplacements segments) =
      stockLinesFrom lines cursor segments := by
  fun_induction Segment.pairReplacements segments with
  | case1 d stock blanks a rest heq ih =>
    intro cursor
    have hstart : (Segment.addition a).start = d.stop := heq
    simp only [stockLinesFrom, ih, Segment.stop, hstart, span_self]
    rfl
  | case2 d stock blanks a rest hne ih =>
    intro cursor
    simp only [stockLinesFrom, ih]
  | case3 s rest hno ih =>
    intro cursor
    simp only [stockLinesFrom, ih]
  | case4 =>
    intro cursor
    rfl

theorem stockSourcesFrom_pair (count : Nat) (segments : List Segment) :
    ∀ cursor, stockSourcesFrom count cursor (Segment.pairReplacements segments) =
      stockSourcesFrom count cursor segments := by
  fun_induction Segment.pairReplacements segments with
  | case1 d stock blanks a rest heq ih =>
    intro cursor
    have hstart : (Segment.addition a).start = d.stop := heq
    simp only [stockSourcesFrom, ih, Segment.stop, hstart, Nat.sub_self]
    simp [Segment.sources, Segment.guarded, Segment.start, Segment.stock]
  | case2 d stock blanks a rest hne ih =>
    intro cursor
    simp only [stockSourcesFrom, ih]
  | case3 s rest hno ih =>
    intro cursor
    simp only [stockSourcesFrom, ih]
  | case4 =>
    intro cursor
    rfl

/-! ## Sources of a layout -/

/-- The lines on which a guard that starts at a line holds its stock. -/
def Guard.sources (g : Guard) (start : Nat) : List Nat :=
  List.range' (if g.style = .singleLine then start else start + 1) g.stock.length

/-- The lines on which a piece that starts at a line holds its stock. -/
def Piece.sources (start : Nat) : Piece → List Nat
  | .line _ => [start]
  | .guard g => g.sources start

namespace Layout

/-- The lines on which a layout whose first line has this number holds its stock. -/
def sourcesFrom : Nat → Layout → List Nat
  | _, [] => []
  | i, p :: rest => p.sources i ++ sourcesFrom (i + p.height) rest

theorem length_written (tag : Tag) (layout : Layout) : (layout.written tag).length = layout.height := by
  induction layout with
  | nil => rfl
  | cons p layout ih =>
    have hp : (p.written tag).length = p.height := by
      cases p with
      | line t => rfl
      | guard g => exact g.length_written tag
    simp only [written, List.flatMap_cons, List.length_append, hp, height_cons]
    exact congrArg (p.height + ·) ih

theorem sourcesFrom_append (a b : Layout) :
    ∀ i, sourcesFrom i (a ++ b) = sourcesFrom i a ++ sourcesFrom (i + a.height) b := by
  induction a with
  | nil => intro i; rfl
  | cons p a ih =>
    intro i
    simp only [List.cons_append, sourcesFrom, ih, List.append_assoc, height_cons, Nat.add_assoc]

theorem height_map_line (lines : List Text) : height (lines.map Piece.line) = lines.length := by
  induction lines with
  | nil => rfl
  | cons t lines ih => rw [List.map_cons, height_cons, ih, List.length_cons, Piece.height, Nat.add_comm]

theorem sourcesFrom_map_line (lines : List Text) :
    ∀ i, sourcesFrom i (lines.map Piece.line) = List.range' i lines.length := by
  induction lines with
  | nil => intro i; rfl
  | cons t lines ih =>
    intro i
    simp only [List.map_cons, sourcesFrom, ih, Piece.sources, Piece.height, List.length_cons, List.range'_succ]
    rfl

theorem sourcesFrom_map_guard {guards : List Guard} (h : ∀ g ∈ guards, g.deletion = false) :
    ∀ i, sourcesFrom i (guards.map Piece.guard) = [] := by
  induction guards with
  | nil => intro i; rfl
  | cons g guards ih =>
    intro i
    have hstock : g.stock = [] := by simp [Guard.stock, h g List.mem_cons_self]
    simp only [List.map_cons, sourcesFrom, Piece.sources, Guard.sources, hstock, List.length_nil, List.range'_zero,
      List.nil_append]
    exact ih (fun g hg => h g (List.mem_cons_of_mem _ hg)) _

end Layout

theorem Guard.segment_sources (g : Guard) (i : Nat) : (g.segment i).sources = g.sources i := by
  have hguarded : (g.segment i).guarded = g.guarded i := by
    unfold Guard.segment
    split <;> rfl
  simp only [Segment.sources, Segment.start, hguarded, g.segment_stock, Guard.sources, Guard.guarded]
  cases g.style <;> rfl

section
variable {tag : Tag} {lines : List Text} {layout : Layout}

/-- The stock lines from the cursor on are the lines up to the layout and then its stock lines. -/
theorem stockLinesFrom_layout (h : Reads tag lines layout) :
    ∀ (before : List Text) (cursor : Nat), cursor ≤ before.length →
      stockLinesFrom (before ++ lines) cursor (layout.segmentsFrom before.length) =
        before.drop cursor ++ layout.stock := by
  induction h with
  | nil =>
    intro before cursor hc
    simp [stockLinesFrom, Layout.segmentsFrom, Layout.stock]
  | @line t ts layout ht hts ih =>
    intro before cursor hc
    have := ih (before ++ [t]) cursor (by simp; omega)
    simp only [List.append_assoc, List.singleton_append, List.length_append, List.length_singleton] at this
    rw [Layout.segmentsFrom, this, List.drop_append_of_le_length hc]
    simp [Layout.stock, Piece.stock]
  | @guard g ls ts layout hg hts ih =>
    intro before cursor hc
    have := ih (before ++ ls) (before ++ ls).length le_rfl
    simp only [List.append_assoc, List.length_append, hg.length] at this
    simp only [Layout.segmentsFrom, stockLinesFrom, g.segment_start, g.segment_stop, g.segment_stock, this]
    simp [span, Layout.stock, Piece.stock, hg.length]

theorem stockSourcesFrom_layout (layout : Layout) :
    ∀ i cursor, cursor ≤ i → stockSourcesFrom (i + layout.height) cursor (layout.segmentsFrom i) =
      List.range' cursor (i - cursor) ++ layout.sourcesFrom i := by
  induction layout with
  | nil =>
    intro i cursor hc
    simp [stockSourcesFrom, Layout.segmentsFrom, Layout.sourcesFrom, Layout.height]
  | cons p layout ih =>
    intro i cursor hc
    cases p with
    | line t =>
      have hi : i + Layout.height (.line t :: layout) = i + 1 + Layout.height layout := by
        simp only [Layout.height_cons, Piece.height]
        omega
      have hsplit : List.range' cursor (i + 1 - cursor) = List.range' cursor (i - cursor) ++ [i] := by
        rw [show i + 1 - cursor = (i - cursor) + 1 by omega, List.range'_1_concat]
        congr 2
        omega
      rw [hi, Layout.segmentsFrom, ih (i + 1) cursor (by omega), hsplit]
      simp [Layout.sourcesFrom, Piece.sources, Piece.height]
    | guard g =>
      have hi : i + Layout.height (.guard g :: layout) = i + g.height + Layout.height layout := by
        simp only [Layout.height_cons, Piece.height]
        omega
      simp only [Layout.segmentsFrom, stockSourcesFrom, g.segment_start, g.segment_stop, g.segment_sources]
      rw [hi, ih (i + g.height) (i + g.height) le_rfl]
      simp [Layout.sourcesFrom, Piece.sources, Piece.height]

theorem stockLines_of_reads (h : Reads tag lines layout) {segments : List Segment}
    (hpair : Segment.pairReplacements (layout.segmentsFrom 0) = segments) :
    stockLines lines segments = layout.stock := by
  have hstock := stockLinesFrom_layout h [] 0 le_rfl
  simp only [List.nil_append, List.length_nil, List.drop_nil] at hstock
  rw [← hpair, stockLines, stockLinesFrom_pair, hstock]

/-- A guard holds its stock on lines of its own. -/
theorem Guard.sources_within (g : Guard) {i j : Nat} (h : j ∈ g.sources i) : i ≤ j ∧ j < i + g.height := by
  have hstock : g.stock.length ≤ g.lines.length := by
    unfold Guard.stock
    split <;> simp
  obtain ⟨k, hk, rfl⟩ := List.mem_range'.mp h
  unfold Guard.height
  cases g.style <;> simp <;> omega

theorem Piece.sources_within {p : Piece} {i j : Nat} (h : j ∈ p.sources i) : i ≤ j ∧ j < i + p.height := by
  cases p with
  | line t =>
    obtain rfl := List.mem_singleton.mp h
    exact ⟨le_rfl, Nat.lt_succ_self j⟩
  | guard g => exact g.sources_within h

theorem Piece.sources_ascending (p : Piece) (i : Nat) : (p.sources i).Pairwise (· < ·) := by
  cases p with
  | line t => exact List.pairwise_singleton _ _
  | guard g => exact List.pairwise_lt_range'

/-- The sources of a layout are lines of it. -/
theorem Layout.sourcesFrom_within (layout : Layout) :
    ∀ {i j : Nat}, j ∈ layout.sourcesFrom i → i ≤ j ∧ j < i + layout.height := by
  induction layout with
  | nil =>
    intro i j h
    cases h
  | cons p layout ih =>
    intro i j h
    rw [Layout.height_cons]
    rcases List.mem_append.mp h with h | h
    · have := Piece.sources_within h
      omega
    · have := ih h
      omega

/-- The sources of a layout go up. -/
theorem Layout.sourcesFrom_ascending (layout : Layout) : ∀ i, (layout.sourcesFrom i).Pairwise (· < ·) := by
  induction layout with
  | nil => exact fun i => List.Pairwise.nil
  | cons p layout ih =>
    intro i
    refine List.pairwise_append.mpr ⟨p.sources_ascending i, ih _, fun j hj k hk => ?_⟩
    have := Piece.sources_within hj
    have := Layout.sourcesFrom_within layout hk
    omega

/-- Clearing lines leaves the stock lines of their layout. -/
theorem clearLines_of_reads (h : Reads tag lines layout) :
    clearLines tag lines = .ok ⟨layout.stock, (layout.sourcesFrom 0).map some⟩ := by
  have hsources := stockSourcesFrom_layout layout 0 0 le_rfl
  simp only [Nat.zero_add, Nat.sub_self, List.range'_zero, List.nil_append, ← h.length] at hsources
  simp only [clearLines, Segment.parse, h.scan 0, Except.map, bind, Except.bind, pure, Except.pure,
    stockLines_of_reads h rfl, stockSources, stockSourcesFrom_pair, hsources]

/-- Lines that can be cleared split into stretches, whose stock is what is left of them. -/
theorem exists_splits_of_clearLines {cleared : Sourced Nat} (h : clearLines tag lines = .ok cleared) :
    ∃ split, Splits tag lines split ∧ cleared =
      ⟨Layout.stock (split.map Stretch.piece), (Layout.sourcesFrom 0 (split.map Stretch.piece)).map some⟩ := by
  cases hparse : Segment.parse tag lines with
  | error e =>
    rw [clearLines, hparse] at h
    cases h
  | ok segments =>
    obtain ⟨split, hsplit⟩ := exists_splits_of_parse hparse
    exact ⟨split, hsplit, Except.ok.inj (h.symm.trans (clearLines_of_reads hsplit.reads))⟩

/-! ## Parsed lines -/

/-- The layout of lines that parse. -/
theorem exists_layout (hid : tag.IsIdentifier) (q : CodePoint → Prop) (hl : ∀ l ∈ lines, OneLine l)
    (hq : ∀ l ∈ lines, ∀ c ∈ l, q c) {segments : List Segment} (h : Segment.parse tag lines = .ok segments) :
    ∃ layout, Reads tag lines layout ∧ Segment.pairReplacements (layout.segmentsFrom 0) = segments ∧
      ∀ p ∈ layout, p.Fits tag ∧ p.GuardOver q := by
  cases hscan : Segment.scan tag 0 .nothing lines with
  | error e => simp [Segment.parse, hscan, Except.map] at h
  | ok found =>
    have hpair : Segment.pairReplacements found = segments := by simpa [Segment.parse, hscan, Except.map] using h
    obtain ⟨layout, hr, rfl, hf⟩ := exists_reads hid q lines hl hq hscan
    exact ⟨layout, hr, hpair, hf⟩

/-! ## Lines without segments -/

theorem eq_nil_of_pairReplacements {segments : List Segment} (h : Segment.pairReplacements segments = []) :
    segments = [] := by
  revert h
  fun_cases Segment.pairReplacements segments <;> simp

theorem Reads.classify_of_segments_nil (h : Reads tag lines layout) :
    ∀ {i : Nat}, layout.segmentsFrom i = [] → ∀ l ∈ lines, tag.classify l = .plain := by
  induction h with
  | nil => simp
  | line ht hts ih =>
    intro i hnil l hl
    rcases List.mem_cons.mp hl with rfl | hl
    · exact ht
    · exact ih hnil l hl
  | guard hg hts ih =>
    intro i hnil
    cases hnil

/-- Lines in which no segment is found carry no guards. -/
theorem plain_of_parse (hid : tag.IsIdentifier) (hl : ∀ l ∈ lines, OneLine l)
    (h : Segment.parse tag lines = .ok []) : ∀ l ∈ lines, tag.Plain l := by
  obtain ⟨layout, hr, hpair, -⟩ := exists_layout hid (fun c => c ≠ char '\n') hl hl h
  have hnil := eq_nil_of_pairReplacements hpair
  exact fun l hmem => (Tag.classify_eq_plain (hl l hmem)).mp (hr.classify_of_segments_nil hnil l hmem)

end

end Regraft

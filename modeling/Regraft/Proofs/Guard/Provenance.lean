import Mathlib.Data.List.Forall2
import Regraft.Proofs.Guard.Neighbours
/-!
# Where stock lines come from

The stock lines of a file and their sources are found in two walks over its segments. Here the walks are held against
each other: line by line, a stock line is what the guards around its source make of the line that stands there.

* `Stretch.restores`: the stock of one guard, told by the lines that hold it;
* `forall₂_holds`: the stock of a layout beside its sources;
* `anchorsFrom_eq`: anchors count sources;
* `stock_traced`: all of it, for the segments that the reader finds.
-/
namespace Regraft

/-- A stock line, told by the guarded line that holds it: a blank line in a block stands for itself, every other one
behind a comment mark, and a trailing guard has the commented line in front of it. -/
def Tag.Restores (tag : Tag) (style : GuardStyle) (line stock : Text) : Prop :=
  match style with
  | .block => if allBlank line then stock = line else uncomment? line = some stock
  | .nextLine => uncomment? line = some stock
  | .singleLine => ∃ guard, tag.trailing? line = some guard ∧ uncomment? guard.code = some stock

/-- A line of a file holds a stock line: it is that line and outside of all segments, or a deletion restores it. -/
def Tag.Holds (tag : Tag) (lines : List Text) (segments : List Segment) (j : Nat) (stock : Text) : Prop :=
  ∃ line, lines[j]? = some line ∧
    ((∀ s ∈ segments, s.covers j = false) ∧ stock = line ∨
      ∃ s ∈ segments, s.covers j = true ∧ s.kind = .deletion ∧ tag.Restores s.guarded.style line stock)

/-- Stock lines with their sources and the anchors of segments, as they belong to the lines of a file. -/
structure StockTrace (tag : Tag) (lines : List Text) (segments : List Segment) (stock : List Text)
    (sources anchors : List Nat) : Prop where
  length : sources.length = stock.length
  ascending : sources.Pairwise (· < ·)
  within : ∀ j ∈ sources, j < lines.length
  holds : List.Forall₂ (tag.Holds lines segments) sources stock
  outside : ∀ j < lines.length, (∀ s ∈ segments, s.covers j = false) → j ∈ sources
  anchors : anchors = segments.map fun s => sources.countP (· < s.start)

theorem Segment.covers_eq_false {s : Segment} {j : Nat} : s.covers j = false ↔ j < s.start ∨ s.stop ≤ j := by
  rw [← Bool.not_eq_true, covers_iff]
  omega

section
variable {tag : Tag}

/-! ## The stock of a guard -/

theorem forall₂_range'_map {α β : Type} {R : Nat → β → Prop} {f : α → β} {xs : List α} :
    ∀ {first : Nat}, (∀ k x, xs[k]? = some x → R (first + k) (f x)) →
      List.Forall₂ R (List.range' first xs.length) (xs.map f) := by
  induction xs with
  | nil =>
    intro first _
    exact .nil
  | cons x xs ih =>
    intro first h
    refine .cons (h 0 x rfl) (ih fun k y hy => ?_)
    have hnext := h (k + 1) y hy
    rwa [← Nat.add_assoc, Nat.add_right_comm] at hnext

/-- The deleted lines of a stretch, told by their places in it. -/
theorem Stretch.restores {s : Stretch} (hs : s.Sound tag) {g : Guard} (hg : s.piece = .guard g)
    (hd : g.deletion = true) {k : Nat} {body : Text} (hbody : g.lines[k]? = some body) :
    ∃ line, s.lines[if g.style = .singleLine then k else k + 1]? = some line ∧
      tag.Restores g.style line (Segment.restore body) := by
  have hcode {code : Text} (hb : allBlank code = false) (hu : (uncomment? code).isSome = true) :
      uncomment? code = some (Segment.restore code) := by
    obtain ⟨stock, hstock⟩ := Option.isSome_iff_exists.mp hu
    rw [hstock, restore_of_uncomment? hb hstock]
  cases s with
  | plain line => cases hg
  | trailing line guard =>
    obtain rfl := Piece.guard.inj hg
    obtain ⟨rfl, rfl⟩ : k = 0 ∧ guard.code = body := by
      cases k <;> simp_all
    have htrailing := Tag.trailing?_of_classify hs.1
    exact ⟨line, rfl, guard, htrailing, hcode (Tag.not_allBlank_code htrailing) (hs.2 hd)⟩
  | block first guard body' last =>
    obtain rfl := Piece.guard.inj hg
    have hinner := hs.2.2 body (List.mem_of_getElem? hbody)
    refine ⟨body, ?_, ?_⟩
    · simp only [reduceCtorEq, if_false, Stretch.lines, List.getElem?_cons_succ]
      rwa [List.getElem?_append_left (List.getElem?_eq_some_iff.mp hbody).1]
    · cases hb : allBlank body with
      | true => simp [Tag.Restores, Segment.restore, hb]
      | false =>
        rw [Tag.Restores, if_neg (by simp [hb])]
        exact hcode hb ((hinner.2 hd).resolve_left (by simp [hb]))
  | nextLine first guard line =>
    obtain rfl := Piece.guard.inj hg
    obtain ⟨rfl, rfl⟩ : k = 0 ∧ line = body := by
      cases k <;> simp_all
    exact ⟨line, rfl, hcode hs.2.1 (hs.2.2.2 hd)⟩

/-- The stock of a guard beside the lines that hold it. -/
theorem Stretch.forall₂_restores {s : Stretch} (hs : s.Sound tag) {g : Guard} (hg : s.piece = .guard g) (i : Nat) :
    List.Forall₂ (fun j t => (i ≤ j ∧ j < i + g.height) ∧ g.deletion = true ∧
      ∃ line, s.lines[j - i]? = some line ∧ tag.Restores g.style line t) (g.sources i) g.stock := by
  cases hd : g.deletion with
  | false =>
    simp [Guard.sources, Guard.stock, hd]
  | true =>
    have hwithin : ∀ j ∈ g.sources i, i ≤ j ∧ j < i + g.height := fun j hj => g.sources_within hj
    simp only [Guard.sources, Guard.stock, hd, if_true, List.length_map] at hwithin ⊢
    refine forall₂_range'_map fun k body hbody => ?_
    have hk := (List.getElem?_eq_some_iff.mp hbody).1
    refine ⟨hwithin _ (List.mem_range'.mpr ⟨k, hk, by omega⟩), trivial, ?_⟩
    obtain ⟨line, hline, hrestores⟩ := s.restores hs hg hd hbody
    refine ⟨line, ?_, hrestores⟩
    rw [← hline]
    congr 1
    split <;> omega

/-! ## The stock of a layout -/

/-- Segments in front of a line and behind the others say nothing about it. -/
theorem Tag.Holds.cons {lines : List Text} {segments : List Segment} {j : Nat} {t : Text} {s : Segment}
    (h : tag.Holds lines segments j t) (hs : s.stop ≤ j) : tag.Holds lines (s :: segments) j t := by
  obtain ⟨line, hline, ⟨hout, ht⟩ | ⟨d, hd, hdeletes⟩⟩ := h
  · exact ⟨line, hline, .inl ⟨List.forall_mem_cons.mpr ⟨Segment.covers_eq_false.mpr (.inr hs), hout⟩, ht⟩⟩
  · exact ⟨line, hline, .inr ⟨d, List.mem_cons_of_mem _ hd, hdeletes⟩⟩

/-- The stock of stretches beside its sources, where the file goes on in front of them. -/
theorem forall₂_holds (split : List Stretch) : ∀ before : List Text, (∀ s ∈ split, s.Sound tag) →
    List.Forall₂ (fun j t => before.length ≤ j ∧
        tag.Holds (before ++ split.flatMap Stretch.lines)
          (Layout.segmentsFrom before.length (split.map Stretch.piece)) j t)
      (Layout.sourcesFrom before.length (split.map Stretch.piece)) (Layout.stock (split.map Stretch.piece)) := by
  induction split with
  | nil => exact fun _ _ => .nil
  | cons s split ih =>
    intro before hsound
    obtain ⟨hs, hsplit⟩ := List.forall_mem_cons.mp hsound
    have hrest := ih (before ++ s.lines) hsplit
    rw [List.length_append, s.length_lines, List.append_assoc] at hrest
    simp only [List.map_cons, Layout.sourcesFrom, Layout.stock, List.flatMap_cons] at hrest ⊢
    -- The lines of this stretch hold its own stock, and it says nothing about the lines behind it.
    refine List.rel_append ?_ ?_
    · cases hp : s.piece with
      | line t =>
        obtain rfl := s.eq_plain_of_piece hp
        refine .cons ⟨le_rfl, t, by simp [Stretch.lines], .inl ⟨fun d hd => ?_, rfl⟩⟩ .nil
        exact Segment.covers_eq_false.mpr (.inl (Layout.le_start d hd))
      | guard g =>
        refine (s.forall₂_restores hs hp before.length).imp fun j t hj => ?_
        obtain ⟨⟨hle, hlt⟩, hd, line, hline, hrestores⟩ := hj
        refine ⟨hle, line, ?_, .inr ⟨g.segment before.length, List.mem_cons_self, ?_, ?_, ?_⟩⟩
        · have hj := (List.getElem?_eq_some_iff.mp hline).1
          rwa [List.getElem?_append_right hle, List.getElem?_append_left hj]
        · rw [Segment.covers_iff, g.segment_start, g.segment_stop]
          exact ⟨hle, hlt⟩
        · simp [Guard.segment, hd, Segment.kind]
        · have hstyle : (g.segment before.length).guarded.style = g.style := by
            simp [Guard.segment, hd, Segment.guarded, Guard.guarded]
          rwa [hstyle]
    · refine hrest.imp fun j t hj => ⟨(Nat.le_add_right _ _).trans hj.1, ?_⟩
      cases hp : s.piece with
      | line t' =>
        rw [hp] at hj
        exact hj.2
      | guard g =>
        rw [hp] at hj
        exact hj.2.cons (g.segment_stop _ ▸ hj.1)

/-- What no segment of a layout covers is stock. -/
theorem Layout.mem_sourcesFrom {layout : Layout} {j : Nat} :
    ∀ {i : Nat}, i ≤ j → j < i + layout.height → (∀ s ∈ layout.segmentsFrom i, s.covers j = false) →
      j ∈ layout.sourcesFrom i := by
  induction layout with
  | nil =>
    intro i hi hj _
    exact absurd hj (Nat.not_lt.mpr hi)
  | cons p layout ih =>
    intro i hi hj hout
    rw [height_cons, ← Nat.add_assoc] at hj
    refine List.mem_append.mpr ?_
    cases p with
    | line t =>
      rcases hi.eq_or_lt with rfl | hlt
      · exact .inl List.mem_cons_self
      · exact .inr (ih hlt hj hout)
    | guard g =>
      obtain ⟨hg, hrest⟩ := List.forall_mem_cons.mp hout
      rw [Segment.covers_eq_false, g.segment_start, g.segment_stop] at hg
      exact .inr (ih (hg.resolve_left (Nat.not_lt.mpr hi)) hj hrest)

/-! ## Paired segments -/

/-- Segments cover a line if and only if others do, and where those delete it, these do, in the same style. -/
structure SameCover (j : Nat) (segments others : List Segment) : Prop where
  free : (∀ s ∈ segments, s.covers j = false) ↔ ∀ s ∈ others, s.covers j = false
  deleted : ∀ d ∈ others, d.covers j = true → d.kind = .deletion →
    ∃ s ∈ segments, s.covers j = true ∧ s.kind = .deletion ∧ s.guarded = d.guarded

theorem SameCover.cons {j : Nat} {segments others : List Segment} (h : SameCover j segments others) (s : Segment) :
    SameCover j (s :: segments) (s :: others) := by
  refine ⟨by rw [List.forall_mem_cons, List.forall_mem_cons, h.free], ?_⟩
  intro d hd hcovers hkind
  rcases List.mem_cons.mp hd with rfl | hd
  · exact ⟨d, List.mem_cons_self, hcovers, hkind, rfl⟩
  · obtain ⟨p, hp, hsame⟩ := h.deleted d hd hcovers hkind
    exact ⟨p, List.mem_cons_of_mem _ hp, hsame⟩

/-- Pairing leaves the lines that are covered, and what a deletion covers to a deletion. -/
theorem sameCover_pair {segments : List Segment} (j : Nat) (h : ∀ s ∈ segments, s.start ≤ s.stop) :
    SameCover j (Segment.pairReplacements segments) segments := by
  fun_induction Segment.pairReplacements segments with
  | case1 d stock blanks a rest heq ih =>
    obtain ⟨hd, ha, hrest⟩ : d.start ≤ d.stop ∧ a.start ≤ a.stop ∧ ∀ s ∈ rest, s.start ≤ s.stop := by
      simpa [Segment.start, Segment.stop, Segment.guarded] using h
    have hjoin : (Segment.deletion d stock blanks (some a)).covers j = false ↔
        (Segment.deletion d stock blanks none).covers j = false ∧ (Segment.addition a).covers j = false := by
      simp only [Segment.covers_eq_false, Segment.start, Segment.stop, Segment.guarded]
      omega
    have hpair := ih hrest
    refine ⟨by rw [List.forall_mem_cons, hpair.free, hjoin, List.forall_mem_cons, List.forall_mem_cons, and_assoc], ?_⟩
    intro s hs hcovers hkind
    rcases List.mem_cons.mp hs with rfl | hs
    · refine ⟨_, List.mem_cons_self, ?_, rfl, rfl⟩
      rw [← Bool.not_eq_false, hjoin]
      exact fun hnone => by simp [hcovers] at hnone
    · rcases List.mem_cons.mp hs with rfl | hs
      · cases hkind
      · obtain ⟨p, hp, hsame⟩ := hpair.deleted s hs hcovers hkind
        exact ⟨p, List.mem_cons_of_mem _ hp, hsame⟩
  | case2 d stock blanks a rest hne ih => exact (ih fun s hs => h s (List.mem_cons_of_mem _ hs)).cons _
  | case3 s rest hno ih => exact (ih fun s hs => h s (List.mem_cons_of_mem _ hs)).cons s
  | case4 => exact ⟨Iff.rfl, fun s hs => by cases hs⟩

/-- A line holds the same stock when replacements are paired. -/
theorem Tag.Holds.pair {lines : List Text} {segments : List Segment} {j : Nat} {t : Text}
    (h : tag.Holds lines segments j t) (hle : ∀ s ∈ segments, s.start ≤ s.stop) :
    tag.Holds lines (Segment.pairReplacements segments) j t := by
  have hpair := sameCover_pair j hle
  obtain ⟨line, hline, ⟨hfree, ht⟩ | ⟨d, hd, hcovers, hkind, hrestores⟩⟩ := h
  · exact ⟨line, hline, .inl ⟨hpair.free.mpr hfree, ht⟩⟩
  · obtain ⟨p, hp, hpcovers, hpkind, hguarded⟩ := hpair.deleted d hd hcovers hkind
    exact ⟨line, hline, .inr ⟨p, hp, hpcovers, hpkind, hguarded ▸ hrestores⟩⟩

/-! ## Anchors -/

/-- A segment holds its stock on lines of its own. -/
theorem Layout.sources_pairedFrom (i : Nat) (layout : Layout) :
    ∀ s ∈ layout.pairedFrom i, ∀ j ∈ s.sources, s.start ≤ j ∧ j < s.stop := by
  have hguard (g : Guard) (i : Nat) :
      ∀ j ∈ (g.segment i).sources, (g.segment i).start ≤ j ∧ j < (g.segment i).stop := by
    intro j hj
    rw [g.segment_start, g.segment_stop]
    exact g.sources_within (g.segment_sources i ▸ hj)
  fun_induction pairedFrom i layout with
  | case1 i => simp
  | case2 i t rest ih => exact ih
  | case3 i d a rest hpair ih =>
    refine List.forall_mem_cons.mpr ⟨fun j hj => ?_, ih⟩
    have hd : d.deletion = true := by simp_all
    have hsegment := hguard d i j
    simp only [Guard.segment, hd, if_true] at hsegment
    obtain ⟨hle, hlt⟩ := hsegment hj
    exact ⟨hle, hlt.trans_le (Nat.le_add_right _ _)⟩
  | case4 i d a rest hpair ih => exact List.forall_mem_cons.mpr ⟨hguard d i, ih⟩
  | case5 i g rest hno ih => exact List.forall_mem_cons.mpr ⟨hguard g i, ih⟩

/-- The sources from the cursor on are not in front of it. -/
theorem le_of_mem_stockSourcesFrom {count : Nat} {segments : List Segment}
    (hsources : ∀ s ∈ segments, ∀ j ∈ s.sources, s.start ≤ j ∧ j < s.stop) :
    ∀ {cursor : Nat}, Spread count cursor segments → ∀ j ∈ stockSourcesFrom count cursor segments, cursor ≤ j := by
  induction segments with
  | nil =>
    intro cursor _ j hj
    exact (List.mem_range'_1.mp hj).1
  | cons s rest ih =>
    intro cursor hspread j hj
    obtain ⟨hs, hrest⟩ := List.forall_mem_cons.mp hsources
    rcases List.mem_append.mp hj with hj | hj
    · rcases List.mem_append.mp hj with hj | hj
      · exact (List.mem_range'_1.mp hj).1
      · exact hspread.1.trans (hs j hj).1
    · exact hspread.1.trans (hspread.2.1.trans (ih hrest hspread.2.2 j hj))

/-- The anchor of a segment counts the sources in front of it. -/
theorem anchorsFrom_eq {count : Nat} {segments : List Segment}
    (hsources : ∀ s ∈ segments, ∀ j ∈ s.sources, s.start ≤ j ∧ j < s.stop) :
    ∀ {cursor : Nat} (before : List Nat), Spread count cursor segments → (∀ j ∈ before, j < cursor) →
      anchorsFrom cursor before.length segments =
        segments.map fun s => (before ++ stockSourcesFrom count cursor segments).countP (· < s.start) := by
  induction segments with
  | nil => exact fun _ _ _ => rfl
  | cons s rest ih =>
    intro cursor before hspread hbefore
    obtain ⟨hs, hrest⟩ := List.forall_mem_cons.mp hsources
    obtain ⟨hcursor, hstop, hspread⟩ := hspread
    -- In front of the segment stand the sources so far and the lines up to it, and all others behind its start.
    have hfront : ∀ j ∈ before ++ List.range' cursor (s.start - cursor), j < s.start := by
      intro j hj
      rcases List.mem_append.mp hj with hj | hj
      · exact (hbefore j hj).trans_le hcursor
      · have := List.mem_range'_1.mp hj
        omega
    have hback : ∀ j ∈ s.sources ++ stockSourcesFrom count s.stop rest, ¬j < s.start := by
      intro j hj
      rcases List.mem_append.mp hj with hj | hj
      · exact Nat.not_lt.mpr (hs j hj).1
      · exact Nat.not_lt.mpr (hstop.trans (le_of_mem_stockSourcesFrom hrest hspread j hj))
    have hnext : ∀ j ∈ before ++ List.range' cursor (s.start - cursor) ++ s.sources, j < s.stop := by
      intro j hj
      rcases List.mem_append.mp hj with hj | hj
      · exact (hfront j hj).trans_le hstop
      · exact (hs j hj).2
    have hall : before ++ stockSourcesFrom count cursor (s :: rest) =
        before ++ List.range' cursor (s.start - cursor) ++ (s.sources ++ stockSourcesFrom count s.stop rest) := by
      simp only [stockSourcesFrom, List.append_assoc]
    have hhead : (before ++ stockSourcesFrom count cursor (s :: rest)).countP (· < s.start) =
        before.length + (s.start - cursor) := by
      rw [hall, List.countP_append, List.countP_eq_length.mpr (by simpa using hfront),
        List.countP_eq_zero.mpr (by simpa using hback)]
      simp
    have htail := ih hrest _ hspread hnext
    rw [List.length_append, List.length_append, List.length_range'] at htail
    have hlength : s.sources.length = s.stock.length := List.length_range'
    rw [anchorsFrom, List.map_cons, hhead, ← hlength, htail, hall, List.append_assoc]

/-! ## The trace -/

/-- For every file whose guards are read without a fault, its stock lines and their sources belong together. The sources
go up within the file, one for each stock line; a stock line is the line at its source if that is outside of all
segments, and what a deletion restores from it if not; all lines outside of the segments are sources; and the anchor of
a segment is the number of sources in front of it. -/
theorem stock_traced {lines : List Text} {segments : List Segment} (h : Segment.parse tag lines = .ok segments) :
    StockTrace tag lines segments (stockLines lines segments) (stockSources lines.length segments)
      (anchors segments) := by
  obtain ⟨split, hsplit⟩ := exists_splits_of_parse h
  obtain rfl := Except.ok.inj (hsplit.parse.symm.trans h)
  have hspread := (spread_of_parse hsplit.parse).1
  have hpair := Layout.pairReplacements_segmentsFrom 0 (split.map Stretch.piece)
  have hstock := stockLines_of_reads hsplit.reads hpair
  have hsources : stockSources lines.length (Layout.pairedFrom 0 (split.map Stretch.piece)) =
      Layout.sourcesFrom 0 (split.map Stretch.piece) := by
    have hlayout := stockSourcesFrom_layout (split.map Stretch.piece) 0 0 le_rfl
    rw [Nat.zero_add, ← hsplit.reads.length] at hlayout
    rw [stockSources, ← hpair, stockSourcesFrom_pair, hlayout]
    simp
  have hholds : List.Forall₂ (tag.Holds lines (Layout.pairedFrom 0 (split.map Stretch.piece)))
      (Layout.sourcesFrom 0 (split.map Stretch.piece)) (Layout.stock (split.map Stretch.piece)) := by
    have hholds := forall₂_holds split [] hsplit.sound
    rw [List.nil_append, hsplit.lines] at hholds
    exact hholds.imp fun j t hj => hpair ▸ hj.2.pair Layout.start_le_stop
  refine ⟨?_, ?_, ?_, ?_, ?_, ?_⟩
  · rw [hsources, hstock, hholds.length_eq]
  · rw [hsources]
    exact Layout.sourcesFrom_ascending _ 0
  · rw [hsources]
    intro j hj
    have hlt := (Layout.sourcesFrom_within _ hj).2
    rwa [Nat.zero_add, ← hsplit.reads.length] at hlt
  · rwa [hsources, hstock]
  · rw [hsources]
    intro j hj hout
    rw [← hpair, (sameCover_pair j Layout.start_le_stop).free] at hout
    refine Layout.mem_sourcesFrom (Nat.zero_le j) ?_ hout
    rwa [Nat.zero_add, ← hsplit.reads.length]
  · exact anchorsFrom_eq (Layout.sources_pairedFrom 0 _) [] hspread (by simp)

/-- A block whose lines are replaced, a trailing deletion, and a marker of a deletion right behind it. -/
theorem stock_traced_sample :
    let tag : Tag := ⟨"T", by decide, by decide⟩
    let lines : List Text := ["a;", "// T-: Begin", "  // b;", "", "// T: End", "// T", "c;", "//d; // T-", "// T-",
      "//e;", "f;"]
    ∃ segments, Segment.parse tag lines = .ok segments ∧
      stockLines lines segments = ["a;", "  b;", "", "d;", "e;", "f;"] ∧
      stockSources lines.length segments = [0, 2, 3, 7, 9, 10] ∧ anchors segments = [1, 3, 4] ∧
      StockTrace tag lines segments (stockLines lines segments) (stockSources lines.length segments)
        (anchors segments) := by
  intro tag lines
  have hparse : Segment.parse tag lines = .ok
      [.deletion ⟨.block, 1, 5, ["  // b;", ""], "", ""⟩ ["  b;", ""] [1] (some ⟨.nextLine, 5, 7, ["c;"], "", ""⟩),
        .deletion ⟨.singleLine, 7, 8, ["//d;"], "", ""⟩ ["d;"] [] none,
        .deletion ⟨.nextLine, 8, 10, ["//e;"], "", ""⟩ ["e;"] [] none] := by
    decide
  exact ⟨_, hparse, by decide, by decide, by decide, stock_traced hparse⟩

end

end Regraft

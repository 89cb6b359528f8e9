import Regraft.Record.Build
import Regraft.Splice.Render
import Regraft.Proofs.Fallible
import Regraft.Proofs.Guard.Recomment
import Regraft.Proofs.Guard.Stock
/-!
# The guards of a record

A record is written as one guard, or as two when other lines replace the ones that it takes out. For records that
were made from a file, these are guards of that file, with their deleted lines written again.

* `Record.render_eq`: the lines of a record are those of its guards;
* `exists_madeOf`: the guards of a recorded change, and what the record knows of them;
* `Recorded.coherent`: what holds of a recorded change whatever the tag is.
-/
namespace Regraft

/-- The guards that a record is written in. -/
def Record.guards (r : Record) : List Guard :=
  match r.kind with
  | .addition => [⟨r.style, false, r.comment, r.indent, r.body⟩]
  | .deletion =>
    ⟨r.style, true, r.comment, r.indent, r.commentedStock⟩ ::
      (r.replacementStyle.map fun style =>
        (⟨style, false, r.replacementComment, r.replacementIndent, r.body⟩ : Guard)).toList

/-- The guards that a segment is written in when its record is spliced in. -/
def Segment.guards (s : Segment) : List Guard := (s.record [] [] [] 0).guards

/-- A record that was made of a file's lines, with any order stamped on it; all characters of the file satisfy a
property. -/
def Recorded (q : CodePoint → Prop) (tag : Tag) (r : Record) : Prop :=
  ∃ (lines : List Text) (segments : List Segment) (path : Text) (context : Nat) (order : Int),
    (∀ l ∈ lines, ∀ c ∈ l, q c) ∧ Segment.parse tag lines = .ok segments ∧
      ∃ r₀ ∈ buildRecords lines segments path context, r = { r₀ with order }

/-! ## Rendering -/

section
variable {tag : Tag}

theorem guardLines_eq {g : Guard} (h : g.Fits tag) :
    guardLines tag g.style g.indent g.comment g.lines g.deletion = .ok (g.written tag) := by
  obtain ⟨style, deletion, comment, indent, lines⟩ := g
  have hstyled := h.styled
  cases style with
  | block => rfl
  | singleLine =>
    obtain ⟨-, code, rfl, -⟩ := hstyled
    rfl
  | nextLine =>
    obtain ⟨-, line, rfl, -⟩ := hstyled
    rfl

/-- The lines of a record are those of its guards. -/
theorem Record.render_eq {r : Record} (h : ∀ g ∈ r.guards, g.Fits tag) :
    r.render tag = .ok (r.guards.flatMap (Guard.written tag)) := by
  unfold Record.guards at h ⊢
  unfold Record.render
  cases hk : r.kind with
  | addition =>
    simp only [hk, List.mem_singleton, forall_eq] at h
    simpa using guardLines_eq h
  | deletion =>
    simp only [hk, List.mem_cons] at h
    have hdeleted := guardLines_eq (h _ (.inl rfl))
    simp only at hdeleted
    cases hs : r.replacementStyle with
    | none => simp [hdeleted, bind, Except.bind, pure, Except.pure]
    | some style =>
      simp only [hs, Option.map_some, Option.toList_some, List.mem_singleton] at h
      have hadded := guardLines_eq (h _ (.inr rfl))
      simp only at hadded
      simp [hdeleted, hadded, bind, Except.bind, pure, Except.pure]

theorem guardLines_eq_ok {g : Guard} {lines : List Text}
    (h : guardLines tag g.style g.indent g.comment g.lines g.deletion = .ok lines) : g.written tag = lines := by
  obtain ⟨style, deletion, comment, indent, body⟩ := g
  cases style with
  | block => exact Except.ok.inj h
  | singleLine =>
    rcases body with _ | ⟨line, _ | ⟨next, rest⟩⟩
    · cases h
    · exact Except.ok.inj h
    · cases h
  | nextLine =>
    rcases body with _ | ⟨line, _ | ⟨next, rest⟩⟩
    · cases h
    · exact Except.ok.inj h
    · cases h

/-- A record is rendered as the lines of its guards. -/
theorem Record.render_eq_ok {r : Record} {lines : List Text} (h : r.render tag = .ok lines) :
    lines = r.guards.flatMap (Guard.written tag) := by
  unfold Record.guards
  cases hk : r.kind with
  | addition =>
    simp only [render, hk] at h
    have hwritten := guardLines_eq_ok (g := ⟨r.style, false, r.comment, r.indent, r.body⟩) h
    simp [hwritten]
  | deletion =>
    simp only [render, hk] at h
    obtain ⟨deleted, hdeleted, h⟩ := bind_eq_ok.mp h
    have hfirst := guardLines_eq_ok (g := ⟨r.style, true, r.comment, r.indent, r.commentedStock⟩) hdeleted
    cases hs : r.replacementStyle with
    | none =>
      rw [hs] at h
      obtain rfl := Except.ok.inj h
      simp [hfirst]
    | some style =>
      rw [hs] at h
      obtain ⟨inserted, hinserted, h⟩ := bind_eq_ok.mp h
      obtain rfl := Except.ok.inj h
      have hsecond := guardLines_eq_ok
        (g := ⟨style, false, r.replacementComment, r.replacementIndent, r.body⟩) hinserted
      simp [hfirst, hsecond]

/-! ## Guards of segments -/

theorem Segment.guards_record (s : Segment) (path : Text) (preceding following : List Text) (anchor : Nat) :
    (s.record path preceding following anchor).guards = s.guards := by
  cases s <;> rfl

/-- A segment of some segments, or a deletion of them with an addition of them as its replacement. -/
def PairedFrom (segments : List Segment) (s : Segment) : Prop :=
  s ∈ segments ∨ ∃ d stock blanks a, s = .deletion d stock blanks (some a) ∧
    Segment.deletion d stock blanks none ∈ segments ∧ Segment.addition a ∈ segments

theorem PairedFrom.mono {some more : List Segment} {s : Segment} (h : PairedFrom some s) (hsub : some ⊆ more) :
    PairedFrom more s := by
  rcases h with h | ⟨d, stock, blanks, a, rfl, hd, ha⟩
  · exact .inl (hsub h)
  · exact .inr ⟨d, stock, blanks, a, rfl, hsub hd, hsub ha⟩

theorem pairedFrom_of_mem {s : Segment} {segments : List Segment} :
    s ∈ Segment.pairReplacements segments → PairedFrom segments s := by
  fun_induction Segment.pairReplacements segments with
  | case1 d stock blanks a rest heq ih =>
    intro h
    rcases List.mem_cons.mp h with rfl | h
    · exact .inr ⟨d, stock, blanks, a, rfl, by simp, by simp⟩
    · exact (ih h).mono fun _ hmem => List.mem_cons_of_mem _ (List.mem_cons_of_mem _ hmem)
  | case2 d stock blanks a rest hne ih =>
    intro h
    rcases List.mem_cons.mp h with rfl | h
    · exact .inl List.mem_cons_self
    · exact (ih h).mono (List.subset_cons_self _ _)
  | case3 s' rest hno ih =>
    intro h
    rcases List.mem_cons.mp h with rfl | h
    · exact .inl List.mem_cons_self
    · exact (ih h).mono (List.subset_cons_self _ _)
  | case4 =>
    intro h
    cases h

theorem mem_segmentsFrom {s : Segment} {layout : Layout} :
    ∀ {i : Nat}, s ∈ layout.segmentsFrom i → ∃ g j, Piece.guard g ∈ layout ∧ s = g.segment j := by
  induction layout with
  | nil => intro i h; cases h
  | cons p layout ih =>
    intro i h
    cases p with
    | line t =>
      obtain ⟨g, j, hg, rfl⟩ := ih h
      exact ⟨g, j, List.mem_cons_of_mem _ hg, rfl⟩
    | guard g =>
      rcases List.mem_cons.mp h with rfl | h
      · exact ⟨g, i, List.mem_cons_self, rfl⟩
      · obtain ⟨g, j, hg, rfl⟩ := ih h
        exact ⟨g, j, List.mem_cons_of_mem _ hg, rfl⟩

/-! ## Guards of recorded changes -/

/-- A record is made of a guard and of the guards behind it that replace its stock. -/
structure Record.MadeOf (q : CodePoint → Prop) (tag : Tag) (r : Record) (g : Guard) (rest : List Guard) : Prop where
  guards : r.guards = g.recommented :: rest
  deletion : g.deletion = true ↔ r.kind = .deletion
  style : r.style = g.style
  stock : r.kind = .deletion → r.stock = g.stock
  fits : g.Fits tag ∧ g.Over q
  replaces : ∀ a ∈ rest, a.deletion = false ∧ a.Fits tag ∧ a.Over q

theorem mem_blankOffsets {lines : List Text} {i : Nat} :
    i ∈ Segment.blankOffsets lines ↔ ∃ l, lines[i]? = some l ∧ allBlank l = true := by
  simp only [Segment.blankOffsets, List.mem_filter, List.mem_range]
  constructor
  · intro h
    obtain ⟨hi, hb⟩ := h
    exact ⟨lines[i], List.getElem?_eq_getElem hi, by simpa [hi] using hb⟩
  · intro h
    obtain ⟨l, hl, hb⟩ := h
    exact ⟨(List.getElem?_eq_some_iff.mp hl).1, by simp [hl, hb]⟩

/-- The stock of a guard is written as its lines are written again. -/
theorem commentedStock_eq {r : Record} {lines : List Text} (hs : r.stock = lines.map Segment.restore)
    (hb : r.blankStock = (Segment.blankOffsets lines).map Int.ofNat) : r.commentedStock = lines.map recomment := by
  have hmem : ∀ i : Nat, (i : Int) ∈ r.blankStock ↔ i ∈ Segment.blankOffsets lines := by
    intro i
    rw [hb, List.mem_map]
    constructor
    · intro hx
      obtain ⟨j, hj, hji⟩ := hx
      obtain rfl : j = i := Int.ofNat.inj hji
      exact hj
    · exact fun hi => ⟨i, hi, rfl⟩
  refine List.ext_getElem? fun i => ?_
  simp only [Record.commentedStock, hs, List.getElem?_map, List.getElem?_zipIdx, Option.map_map]
  cases hl : lines[i]? with
  | none => rfl
  | some l =>
    have hblank : i ∈ Segment.blankOffsets lines ↔ allBlank l = true := by
      rw [mem_blankOffsets, hl]
      simp
    simp only [Option.map_some, Function.comp_apply, Nat.zero_add, hmem, hblank, recomment]
    split
    · rename_i h
      simp [Segment.restore, h]
    · rfl

/-- The record of a guard writes the guard, with its deleted lines written again. -/
theorem Guard.segment_guards (g : Guard) (i : Nat) : (g.segment i).guards = [g.recommented] := by
  cases hd : g.deletion with
  | false =>
    rw [Guard.segment, if_neg (by simp [hd]), Guard.recommented_of_addition hd]
    simp [Segment.guards, Record.guards, Segment.record, Guard.guarded, ← hd]
  | true =>
    have hstock := @commentedStock_eq ((g.segment i).record [] [] [] 0) g.lines
      (by simp [Guard.segment, hd, Segment.record]) (by simp [Guard.segment, hd, Segment.record])
    rw [Segment.guards, Record.guards, hstock]
    simp [Guard.segment, hd, Segment.record, Guard.guarded, Guard.recommented]

variable {q : CodePoint → Prop}

theorem madeOf_addition {g : Guard} (h : g.Fits tag ∧ g.Over q) (hd : g.deletion = false) (path : Text)
    (preceding following : List Text) (anchor i : Nat) (order : Int) :
    Record.MadeOf q tag
      { Segment.record path preceding following anchor (.addition (g.guarded i)) with order } g [] := by
  refine ⟨?_, ?_, rfl, fun hk => (by cases hk), h, by simp⟩
  · rw [Guard.recommented_of_addition hd]
    simp [Record.guards, Segment.record, Guard.guarded, ← hd]
  · simp [hd, Segment.record]

theorem madeOf_deletion {g : Guard} (h : g.Fits tag ∧ g.Over q) (hd : g.deletion = true)
    (replacement : Option (Guard × Nat)) (hr : ∀ x ∈ replacement, x.1.deletion = false ∧ x.1.Fits tag ∧ x.1.Over q)
    (path : Text) (preceding following : List Text) (anchor i : Nat) (order : Int) :
    Record.MadeOf q tag
      { Segment.record path preceding following anchor (.deletion (g.guarded i) (g.lines.map Segment.restore)
        (Segment.blankOffsets g.lines) (replacement.map fun x => x.1.guarded x.2)) with order }
      g (replacement.map Prod.fst).toList := by
  have hstock := commentedStock_eq (r := { Segment.record path preceding following anchor
    (.deletion (g.guarded i) (g.lines.map Segment.restore) (Segment.blankOffsets g.lines)
      (replacement.map fun x => x.1.guarded x.2)) with order }) rfl rfl
  refine ⟨?_, ?_, rfl, ?_, h, ?_⟩
  · unfold Record.guards
    simp only [hstock]
    cases replacement with
    | none => simp [Segment.record, Guard.guarded, Guard.recommented, hd]
    | some x => simp [Segment.record, Guard.guarded, Guard.recommented, hd, ← (hr x rfl).1]
  · simp [hd, Segment.record]
  · simp [Segment.record, Guard.stock, hd]
  · simpa using hr

theorem segment_eq_addition {g : Guard} {i : Nat} {a : Guarded} (h : Segment.addition a = g.segment i) :
    g.deletion = false ∧ a = g.guarded i := by
  unfold Guard.segment at h
  split at h
  · cases h
  · rename_i hd
    exact ⟨by simpa using hd, Segment.addition.inj h⟩

theorem deletion_of_segment_eq {g : Guard} {i : Nat} {d : Guarded} {stock : List Text} {blanks : List Nat}
    {replacement : Option Guarded} (h : Segment.deletion d stock blanks replacement = g.segment i) :
    g.deletion = true := by
  unfold Guard.segment at h
  split at h
  · assumption
  · cases h

theorem madeOf_paired {layout : Layout} (hf : ∀ p ∈ layout, p.Fits tag ∧ p.GuardOver q) {s : Segment}
    (hs : PairedFrom (layout.segmentsFrom 0) s) (path : Text) (preceding following : List Text) (anchor : Nat)
    (order : Int) :
    ∃ g rest, Record.MadeOf q tag { s.record path preceding following anchor with order } g rest := by
  rcases hs with hs | ⟨d, stock, blanks, a, rfl, hs, ha⟩
  · obtain ⟨g, i, hg, rfl⟩ := mem_segmentsFrom hs
    cases hd : g.deletion with
    | false =>
      rw [Guard.segment, if_neg (by simp [hd])]
      exact ⟨g, _, madeOf_addition (hf _ hg) hd path preceding following anchor i order⟩
    | true =>
      rw [Guard.segment, if_pos hd]
      exact ⟨g, _, madeOf_deletion (hf _ hg) hd none (by simp) path preceding following anchor i order⟩
  · obtain ⟨g, i, hg, hsegment⟩ := mem_segmentsFrom hs
    obtain ⟨g', j, hg', hadded⟩ := mem_segmentsFrom ha
    obtain ⟨hd', rfl⟩ := segment_eq_addition hadded
    have hd := deletion_of_segment_eq hsegment
    rw [Guard.segment, if_pos hd] at hsegment
    obtain ⟨rfl, rfl, rfl, -⟩ := Segment.deletion.inj hsegment
    have hr : ∀ x ∈ some (g', j), x.1.deletion = false ∧ x.1.Fits tag ∧ x.1.Over q := by
      intro x h
      cases h
      exact ⟨hd', hf _ hg'⟩
    exact ⟨g, _, madeOf_deletion (hf _ hg) hd (some (g', j)) hr path preceding following anchor i order⟩

theorem mem_recordsFrom {stock : List Text} {path : Text} {context : Nat} {r : Record}
    {pairs : List (Segment × Nat)} :
    ∀ {lower : Nat}, r ∈ recordsFrom stock path context lower pairs →
      ∃ s anchor preceding following, (s, anchor) ∈ pairs ∧ r = s.record path preceding following anchor := by
  induction pairs with
  | nil => intro lower h; cases h
  | cons x pairs ih =>
    intro lower h
    rcases List.mem_cons.mp h with rfl | h
    · exact ⟨x.1, x.2, _, _, List.mem_cons_self, rfl⟩
    · obtain ⟨s, anchor, preceding, following, hs, rfl⟩ := ih h
      exact ⟨s, anchor, preceding, following, List.mem_cons_of_mem _ hs, rfl⟩

/-- A recorded change is made of guards of the file that it was recorded from. -/
theorem exists_madeOf (hid : tag.IsIdentifier) (hq : ∀ c, q c → c ≠ char '\n') {r : Record}
    (h : Recorded q tag r) : ∃ g rest, Record.MadeOf q tag r g rest := by
  obtain ⟨lines, segments, path, context, order, hlines, hparse, r₀, hr₀, rfl⟩ := h
  obtain ⟨layout, -, rfl, hf⟩ :=
    exists_layout hid q (fun l hl c hc => hq c (hlines l hl c hc)) hlines hparse
  obtain ⟨s, anchor, preceding, following, hs, rfl⟩ := mem_recordsFrom hr₀
  exact madeOf_paired hf (pairedFrom_of_mem (List.of_mem_zip hs).1) path preceding following anchor order

/-! ## Parts of a recorded change -/

/-- A record whose parts belong together: an addition takes out nothing, the commented stock of a deletion stands for
its stock, and a deletion that nothing replaces brings nothing in. -/
structure Record.IsCoherent (r : Record) : Prop where
  added : r.kind = .addition → r.stock = []
  deleted : r.commentedStock.map Segment.restore = r.stock
  unreplaced : r.kind = .deletion → r.replacementStyle = none → r.body = []

theorem Stretch.restorable {s : Stretch} (hs : s.Sound tag) (hl : ∀ l ∈ s.lines, OneLine l) {g : Guard}
    (hg : s.piece = .guard g) (hd : g.deletion = true) : ∀ l ∈ g.lines, Restorable l := by
  have hover : s.piece.GuardOver (· ≠ char '\n') := s.over hs hl
  rw [hg] at hover
  refine fun l hmem => ⟨hover.lines l hmem, ?_⟩
  cases s with
  | plain line => cases hg
  | trailing line guard =>
    obtain rfl := Piece.guard.inj hg
    obtain rfl := List.mem_singleton.mp hmem
    exact .inr (hs.2 hd)
  | block first guard body last =>
    obtain rfl := Piece.guard.inj hg
    exact (hs.2.2 l hmem).2 hd
  | nextLine first guard line =>
    obtain rfl := Piece.guard.inj hg
    obtain rfl := List.mem_singleton.mp hmem
    exact .inr (hs.2.2.2 hd)

/-- The stock of a parsed segment, told by the lines that hold it. -/
theorem exists_deleted {lines : List Text} {segments : List Segment} (hl : ∀ l ∈ lines, OneLine l)
    (hparse : Segment.parse tag lines = .ok segments) {s : Segment} (hs : s ∈ segments) :
    ∃ deleted, (∀ l ∈ deleted, Restorable l) ∧ s.stock = deleted.map Segment.restore ∧
      s.blankStock = Segment.blankOffsets deleted := by
  obtain ⟨split, hsplit⟩ := exists_splits_of_parse hparse
  obtain rfl := Except.ok.inj (hsplit.parse.symm.trans hparse)
  rw [← Layout.pairReplacements_segmentsFrom] at hs
  have hguard {g : Guard} (hg : Piece.guard g ∈ split.map Stretch.piece) (hd : g.deletion = true) :
      ∀ l ∈ g.lines, Restorable l := by
    obtain ⟨t, ht, hpiece⟩ := List.mem_map.mp hg
    exact t.restorable (hsplit.sound t ht) (fun l hmem => hl l (hsplit.mem_lines ht hmem)) hpiece hd
  rcases pairedFrom_of_mem hs with hs | ⟨d, stock, blanks, a, rfl, hs, -⟩
  · obtain ⟨g, j, hg, rfl⟩ := mem_segmentsFrom hs
    cases hd : g.deletion with
    | false => exact ⟨[], by simp, by simp [Guard.segment, hd, Segment.stock],
        by simp [Guard.segment, hd, Segment.blankStock, Segment.blankOffsets]⟩
    | true => exact ⟨g.lines, hguard hg hd, by simp [Guard.segment, hd, Segment.stock],
        by simp [Guard.segment, hd, Segment.blankStock]⟩
  · obtain ⟨g, j, hg, hsegment⟩ := mem_segmentsFrom hs
    have hd := deletion_of_segment_eq hsegment
    rw [Guard.segment, if_pos hd] at hsegment
    obtain ⟨rfl, rfl, rfl, -⟩ := Segment.deletion.inj hsegment
    exact ⟨g.lines, hguard hg hd, rfl, rfl⟩

/-- The parts of a recorded change belong together, whatever the tag is. -/
theorem Recorded.coherent {r : Record} (h : Recorded (fun c => c ≠ char '\n') tag r) : r.IsCoherent := by
  obtain ⟨lines, segments, path, context, order, hl, hparse, r₀, hr₀, rfl⟩ := h
  obtain ⟨s, anchor, preceding, following, hs, rfl⟩ := mem_recordsFrom hr₀
  obtain ⟨deleted, hdeleted, hstock, hblanks⟩ := exists_deleted hl hparse (List.of_mem_zip hs).1
  cases s with
  | addition g => exact ⟨fun _ => rfl, rfl, fun hk => (by cases hk)⟩
  | deletion g stock blanks replacement =>
    refine ⟨fun hk => (by cases hk), ?_, fun _ hnone => ?_⟩
    · have hblanks : blanks.map Int.ofNat = (Segment.blankOffsets deleted).map Int.ofNat := congrArg _ hblanks
      rw [commentedStock_eq hstock hblanks, List.map_map]
      exact (List.map_congr_left fun l hmem => restore_recomment (hdeleted l hmem)).trans hstock.symm
    · cases replacement with
      | none => rfl
      | some a => cases hnone

end

end Regraft

import Regraft.Proofs.Guard.Neighbours
import Regraft.Proofs.Splice.Clear
import Regraft.Proofs.Splice.InPlace
/-!
# Applying a record again

A record is applied at a place of a live file, and then at the same place again. The second call finds the first one's
guards only as the segment that the reader makes of them, and that may hold more than was put in: a deletion and an
addition that meet are one segment, whoever wrote them.

* `Record.Adopted`: the neighbours that join the guards of a record;
* `found_iff`: the segment of the new guards makes the change of the record, unless a neighbour joins them;
* `exists_layouts`: the file before and after, read as layouts;
* `apply_again`: when the second call leaves the file as it is;
* `apply_adopted`: an addition behind a deletion, and a deletion in front of an addition.
-/
namespace Regraft

section
variable {tag : Tag}

/-! ## Records that are read back -/

/-- The guards of a record are read back where they are written. -/
def Record.IsReadBack (tag : Tag) (r : Record) : Prop := ∀ g ∈ r.guards, Stands tag g (g.written tag)

/-- With a tag that is an identifier, a recorded change is read back, if no line of its stock is read as a guard. -/
theorem Recorded.isReadBack (hid : tag.IsIdentifier) {r : Record} (h : Recorded (fun c => c ≠ char '\n') tag r)
    (hplain : ∀ l ∈ r.stock, tag.classify l = .plain) : r.IsReadBack tag := by
  obtain ⟨g, rest, hmade⟩ := exists_madeOf hid (fun _ hc => hc) h
  have hstock : ∀ l ∈ g.stock, tag.Plain l := by
    intro l hl
    have htaken := hl
    rw [hmade.stock_eq] at htaken
    cases hk : r.kind with
    | addition => simp [hk] at htaken
    | deletion =>
      have hd := hmade.deletion.mpr hk
      rw [Guard.stock, if_pos hd] at hl
      obtain ⟨deleted, hdeleted, rfl⟩ := List.mem_map.mp hl
      have hone := oneLine_restore (hmade.fits.1.restorable_of_mem hd hdeleted)
      exact (Tag.classify_eq_plain hone).mp (hplain _ (by simpa [hk] using htaken))
  exact fun a ha => stands_written hid (hmade.guards_fit hstock a ha)

/-! ## The segment of new guards -/

/-- The neighbours in a file that join the guards of a record put at a place of it: an addition is taken by a deletion
in front of it that nothing replaces yet, and a deletion that nothing replaces takes the lines of an addition behind its
stock. -/
def Record.Adopted (r : Record) (segments : List Segment) (position : Int) : Prop :=
  match r.kind with
  | .addition => ∃ s ∈ segments, s.kind = .deletion ∧ s.replacement = none ∧ (s.stop : Int) = position
  | .deletion => r.replacementStyle = none ∧
      ∃ s ∈ segments, s.kind = .addition ∧ (s.start : Int) = position + r.stock.length ∧ s.inserted ≠ []

section
variable {r : Record} {front back : Layout}

theorem Guard.covers_segment {g : Guard} (h : 0 < g.height) (i : Nat) : (g.segment i).covers i = true := by
  rw [Segment.covers_iff, g.segment_start, g.segment_stop]
  omega

theorem Guard.covers_replaced {d a : Guard} {i j : Nat} (hi : i ≤ j) (hj : j < i + d.height + a.height) :
    (d.replaced a i).covers j = true :=
  Segment.covers_iff.mpr ⟨hi, hj⟩

theorem Guard.covers_replaced_start {d : Guard} (h : 0 < d.height) (a : Guard) (i : Nat) :
    (d.replaced a i).covers i = true :=
  covers_replaced le_rfl (by omega)

/-- One segment of a layout is asked whether it makes the change. -/
theorem Layout.any_covers {layout : Layout} {s : Segment} (hs : s ∈ pairedFrom 0 layout) {j : Nat}
    (hj : s.covers j = true) (P : Segment → Bool) :
    (pairedFrom 0 layout).any (fun t => t.covers j && P t) = P s :=
  (spread_pairedFrom 0 layout le_rfl).any_covers hs hj P

theorem Record.adopted_addition_iff (hk : r.kind = .addition) (hpos : ∀ p ∈ front ++ back, 0 < p.height)
    (hapart : Layout.Apart front back) {g : Guard} (hg : g.deletion = false) :
    r.Adopted (Layout.pairedFrom 0 (front ++ back)) front.height ↔ ¬Layout.Apart front [.guard g] := by
  rw [← Layout.exists_stop_iff hpos hapart hg]
  simp [Record.Adopted, hk]

theorem Record.adopted_deletion_iff (hk : r.kind = .deletion)
    (hpos : ∀ p ∈ front ++ (r.stock.map .line ++ back), 0 < p.height)
    (hapart : Layout.Apart front (r.stock.map .line ++ back)) :
    r.Adopted (Layout.pairedFrom 0 (front ++ (r.stock.map .line ++ back))) front.height ↔
      r.replacementStyle = none ∧ ∃ a back', back = .guard a :: back' ∧ a.deletion = false ∧ a.lines ≠ [] := by
  have hheight : Layout.height (front ++ r.stock.map .line) = front.height + r.stock.length := by
    rw [Layout.height_append, Layout.height_map_line]
  rw [← List.append_assoc] at hpos ⊢
  rw [← Layout.exists_start_iff hpos hapart.behind_lines (· ≠ []), hheight]
  simp only [Record.Adopted, hk, ← Nat.cast_add, Nat.cast_inj]

/-- An addition is found where it was put, unless a deletion takes it. -/
theorem found_addition (hk : r.kind = .addition) (hguards : ∀ g ∈ r.guards, 0 < g.height)
    (hpos : ∀ p ∈ front ++ back, 0 < p.height) (hapart : Layout.Apart front back) :
    (Layout.pairedFrom 0 (front ++ (r.guards.map .guard ++ back))).any
        (fun s => s.covers front.height && s.sameChange r) = true ↔
      ¬r.Adopted (Layout.pairedFrom 0 (front ++ back)) front.height := by
  let g : Guard := ⟨r.style, false, r.comment, r.indent, r.body⟩
  have hr : r.guards = [g] := by simp [Record.guards, hk, g]
  rw [hr, List.forall_mem_singleton] at hguards
  rw [hr, Record.adopted_addition_iff hk hpos hapart (show g.deletion = false from rfl), not_not]
  -- The segment at the place is the addition itself, or the deletion that takes it.
  by_cases hfront : Layout.Apart front [.guard g]
  · have hback : Layout.Apart [.guard g] back := Layout.apart_of_addition rfl
    have hmem := Layout.segment_mem_pairedFrom hfront hback
    refine iff_of_true ?_ hfront
    rw [List.map_singleton, List.singleton_append, Layout.any_covers hmem (g.covers_segment hguards _)]
    simp [Guard.segment, Guard.guarded, Segment.sameChange, hk, g]
  · refine iff_of_false ?_ hfront
    obtain ⟨front', d, a, rest, rfl, ha, hd, hadd⟩ := Layout.exists_of_not_apart hfront
    obtain ⟨ha, -⟩ := List.cons.inj ha
    obtain rfl := Piece.guard.inj ha
    have hmem := Layout.replaced_mem_pairedFrom hd hadd front' back
    have hcovers : (d.replaced g (Layout.height front')).covers (Layout.height (front' ++ [.guard d])) = true := by
      have hheight : Layout.height [.guard d] = d.height := rfl
      rw [Layout.height_append, hheight]
      exact Guard.covers_replaced (Nat.le_add_right _ _) (Nat.lt_add_of_pos_right hguards)
    rw [List.map_singleton, List.singleton_append, List.append_assoc, List.singleton_append,
      Layout.any_covers hmem hcovers]
    simp [Guard.replaced, Segment.sameChange, hk]

/-- A deletion is found where it was put, unless it takes the lines of an addition. -/
theorem found_deletion (hr : r.IsCoherent) (hk : r.kind = .deletion) (hguards : ∀ g ∈ r.guards, 0 < g.height)
    (hpos : ∀ p ∈ front ++ (r.stock.map .line ++ back), 0 < p.height)
    (hapart : Layout.Apart front (r.stock.map .line ++ back)) :
    (Layout.pairedFrom 0 (front ++ (r.guards.map .guard ++ back))).any
        (fun s => s.covers front.height && s.sameChange r) = true ↔
      ¬r.Adopted (Layout.pairedFrom 0 (front ++ (r.stock.map .line ++ back))) front.height := by
  let d : Guard := ⟨r.style, true, r.comment, r.indent, r.commentedStock⟩
  have hfront : Layout.Apart front [.guard d] := Layout.apart_of_head (by simp [d])
  rw [Record.adopted_deletion_iff hk hpos hapart]
  -- The segment at the place is the deletion: with a replacement of its own, with none, or with a neighbour as one.
  cases hs : r.replacementStyle with
  | some style =>
    let a : Guard := ⟨style, false, r.replacementComment, r.replacementIndent, r.body⟩
    have hguard : r.guards = [d, a] := by simp [Record.guards, hk, hs, d, a]
    rw [hguard, List.forall_mem_cons] at hguards
    have hmem := Layout.replaced_mem_pairedFrom (d := d) (a := a) rfl rfl front back
    refine iff_of_true ?_ (by simp)
    rw [hguard, List.map_cons, List.map_singleton, List.cons_append, List.singleton_append,
      Layout.any_covers hmem (Guard.covers_replaced_start hguards.1 a _)]
    simp [Guard.replaced, Guard.guarded, Segment.sameChange, Segment.inserted, hk, hr.deleted, d, a]
  | none =>
    have hguard : r.guards = [d] := by simp [Record.guards, hk, hs, d]
    rw [hguard, List.forall_mem_singleton] at hguards
    rw [hguard, List.map_singleton, List.singleton_append]
    by_cases hback : Layout.Apart [.guard d] back
    · have hmem := Layout.segment_mem_pairedFrom hfront hback
      rw [Layout.any_covers hmem (d.covers_segment hguards _)]
      refine iff_of_true ?_ ?_
      · simp [Guard.segment, Segment.sameChange, Segment.inserted, hk, hr.deleted, hr.unreplaced hk hs, d]
      · rintro ⟨-, a, back', rfl, ha, -⟩
        have := hback d rfl rfl a rfl
        simp [ha] at this
    · obtain ⟨rest, d', a, back', hd, rfl, hdel, hadd⟩ := Layout.exists_of_not_apart hback
      have hmem := Layout.replaced_mem_pairedFrom (d := d) rfl hadd front back'
      rw [Layout.any_covers hmem (Guard.covers_replaced_start hguards a _)]
      simp [Guard.replaced, Guard.guarded, Segment.sameChange, Segment.inserted, hk, hr.deleted,
        hr.unreplaced hk hs, d, hadd]

/-- The guards of a record are found where they were put, unless a neighbour joins them. -/
theorem found_iff (hr : r.IsCoherent) (hguards : ∀ g ∈ r.guards, 0 < g.height)
    (hpos : ∀ p ∈ front ++ (r.stock.map .line ++ back), 0 < p.height)
    (hapart : Layout.Apart front (r.stock.map .line ++ back)) :
    (Layout.pairedFrom 0 (front ++ (r.guards.map .guard ++ back))).any
        (fun s => s.covers front.height && s.sameChange r) = true ↔
      ¬r.Adopted (Layout.pairedFrom 0 (front ++ (r.stock.map .line ++ back))) front.height := by
  cases hk : r.kind with
  | addition =>
    rw [hr.added hk, List.map_nil, List.nil_append] at hpos hapart ⊢
    exact found_addition hk hguards hpos hapart
  | deletion => exact found_deletion hr hk hguards hpos hapart

end

/-! ## Places of a file -/

/-- At a place of a file that is not within a segment, the file can be taken apart. -/
theorem Splits.exists_at {lines : List Text} {split : List Stretch} (h : Splits tag lines split) {place : Nat}
    (hplace : place ≤ lines.length)
    (hout : ∀ s ∈ Layout.pairedFrom 0 (split.map Stretch.piece), ¬(s.start < place ∧ place < s.stop)) :
    ∃ a b front back, lines = a ++ b ∧ a.length = place ∧ split = front ++ back ∧ Splits tag a front ∧
      Splits tag b back ∧ Layout.Apart (front.map Stretch.piece) (back.map Stretch.piece) := by
  rw [h.reads.length] at hplace
  obtain ⟨front, back, hlayout, hheight, hapart⟩ :=
    Layout.exists_apart (List.forall_mem_map.mpr fun s _ => s.height_pos) hplace hout
  obtain ⟨front, back, rfl, rfl, rfl⟩ := List.map_eq_append_iff.mp hlayout
  obtain ⟨a, b, rfl, ha, hb⟩ := h.of_append
  exact ⟨a, b, front, back, rfl, ha.reads.length.trans hheight, rfl, ha, hb, hapart⟩

/-! ## Applying again -/

variable {σ : Type} {b b' : Sourced σ} {r : Record} {position : Int}

theorem placeIn_eq_ok {lines : List Text} {place : Nat} :
    placeIn lines position = .ok place ↔ position = place ∧ place ≤ lines.length := by
  unfold placeIn
  split
  · simp only [reduceCtorEq, false_iff]
    omega
  · simp only [Except.ok.injEq]
    omega

/-- A call that looks for its record leaves the lines where a segment at its place makes the same change. -/
theorem ApplyCall.run_eq_false_iff {segments : List Segment} {place : Nat}
    (hplace : placeIn b.lines position = .ok place) (hparse : Segment.parse tag b.lines = .ok segments) :
    ApplyCall.run tag ⟨position, r, true⟩ b = (.ok false, b) ↔
      segments.any (fun s => s.covers place && s.sameChange r) = true := by
  rw [run_eq]
  simp only [applyRecord, hplace, hparse, Except.mapError, bind, Except.bind, if_true]
  cases segments.any fun s => s.covers place && s.sameChange r with
  | true => exact iff_of_true rfl rfl
  | false =>
    refine iff_of_false ?_ (by simp)
    cases spliceRecord tag b place r <;> simp [pure, Except.pure]

/-- A record that was put into a file at a place outside of its segments: the file read as a layout, before and
after. -/
theorem exists_layouts {segments : List Segment} {place : Nat} (hr : r.IsCoherent) (hback : r.IsReadBack tag)
    (hplain : ∀ l ∈ r.stock, tag.classify l = .plain) (hparse : Segment.parse tag b.lines = .ok segments)
    (hle : place ≤ b.lines.length) (hout : ∀ s ∈ segments, ¬(s.start < place ∧ place < s.stop))
    (hsplice : spliceRecord tag b place r = .ok b') :
    ∃ front back : Layout, front.height = place ∧ place ≤ b'.lines.length ∧
      segments = Layout.pairedFrom 0 (front ++ (r.stock.map .line ++ back)) ∧
      Segment.parse tag b'.lines = .ok (Layout.pairedFrom 0 (front ++ (r.guards.map .guard ++ back))) ∧
      Layout.Apart front (r.stock.map .line ++ back) ∧
      ∀ p ∈ front ++ (r.stock.map .line ++ back), 0 < p.height := by
  obtain ⟨split, hsplit⟩ := exists_splits_of_parse hparse
  obtain rfl := Except.ok.inj (hsplit.parse.symm.trans hparse)
  obtain ⟨rendered, hrender, htake, rfl⟩ := spliceRecord_eq_ok hsplice
  obtain rfl := Record.render_eq_ok hrender
  obtain ⟨a, behind, front, back, hlines, rfl, rfl, ha, hbehind, hapart⟩ := hsplit.exists_at hle hout
  have hextent : r.extent = r.stock.length := by
    unfold Record.extent
    cases hk : r.kind with
    | addition => rw [hr.added hk]; rfl
    | deletion => rfl
  obtain ⟨c, rfl⟩ : ∃ c, behind = r.stock ++ c := by
    rw [hlines, List.drop_left, hextent] at htake
    by_cases hzero : r.stock.length = 0
    · exact ⟨behind, by rw [List.eq_nil_of_length_eq_zero hzero, List.nil_append]⟩
    · exact ⟨behind.drop r.stock.length, by
        conv_lhs => rw [← List.take_append_drop r.stock.length behind, htake hzero]⟩
  obtain ⟨back, rfl, hc⟩ := Splits.exists_behind_plain hplain hbehind
  -- Where the stock stood, the guards are read; the rest of the file is read as before.
  have hpieces : (r.stock.map Stretch.plain).map Stretch.piece = r.stock.map .line := by
    rw [List.map_map]
    rfl
  rw [List.map_append, hpieces] at hapart
  refine ⟨front.map Stretch.piece, back.map Stretch.piece, ha.reads.length.symm, ?_, ?_, ?_, hapart, ?_⟩
  · simp [hlines, replaceSpan]
  · rw [List.map_append, List.map_append, hpieces]
  · have hnew : replaceSpan b.lines a.length r.extent (r.guards.flatMap (Guard.written tag)) =
        a ++ (r.guards.flatMap (Guard.written tag) ++ c) := by
      simp [hlines, hextent, replaceSpan]
    have hreads := ha.reads_append (reads_guards hback hc.reads)
    rw [hnew, Segment.parse, hreads.scan 0, Except.map, Layout.pairReplacements_segmentsFrom]
  · rw [← hpieces, ← List.map_append, ← List.map_append]
    exact List.forall_mem_map.mpr fun s _ => s.height_pos

/-- A recorded change, applied to a file at a place outside of its segments by a call that says so, is applied once: the
next call at the place finds it and leaves the file as it is, if and only if no neighbour joins its guards. This is so
for every change that is read back, as all are whose stock holds no line that is read as a guard, if the tag is an
identifier. -/
theorem apply_again (hr : Recorded (fun c => c ≠ char '\n') tag r)
    (hplain : ∀ l ∈ r.stock, tag.classify l = .plain) :
    (tag.IsIdentifier → r.IsReadBack tag) ∧
      (r.IsReadBack tag → ∀ (b b' : Sourced σ) (position : Int) (segments : List Segment),
        Segment.parse tag b.lines = .ok segments →
        (∀ s ∈ segments, ¬((s.start : Int) < position ∧ position < s.stop)) →
        ApplyCall.run tag ⟨position, r, true⟩ b = (.ok true, b') →
        (ApplyCall.run tag ⟨position, r, true⟩ b' = (.ok false, b') ↔ ¬r.Adopted segments position)) := by
  refine ⟨fun hid => hr.isReadBack hid hplain, fun hback b b' position segments hparse hout hrun => ?_⟩
  obtain ⟨place, hplace, hsplice⟩ : ∃ place, placeIn b.lines position = .ok place ∧
      spliceRecord tag b place r = .ok b' := by
    rcases ApplyCall.run_cases tag ⟨position, r, true⟩ b with ⟨-, hanswer⟩ | ⟨place, hplace, -, hsplice⟩
    · exact absurd (by rw [hrun]) hanswer
    · exact ⟨place, hplace, by rwa [hrun] at hsplice⟩
  obtain ⟨rfl, hle⟩ := placeIn_eq_ok.mp hplace
  obtain ⟨front, back, rfl, hle', rfl, hparse', hapart, hpos⟩ :=
    exists_layouts hr.coherent hback hplain hparse hle (by exact_mod_cast hout) hsplice
  rw [ApplyCall.run_eq_false_iff (placeIn_eq_ok.mpr ⟨rfl, hle'⟩) hparse']
  exact found_iff hr.coherent (fun g hg => (hback g hg).height_pos) hpos hapart

end

/-! ## A change next to another one -/

/-- The guarded line of the sample, as its record. -/
def sampleInsertion : Record :=
  { targetPath := "a.c", kind := .addition, style := .nextLine, comment := ": new", body := ["int y;"], anchor := 2 }

theorem recorded_sampleInsertion : Recorded (fun c => c ≠ char '\n') sampleTag sampleInsertion :=
  recorded_samplePlaced (2, sampleInsertion) (by decide)

/-- In front of the replaced line of the sample, the guarded line is spliced in once. -/
theorem apply_again_sample :
    ∃ b', ApplyCall.run sampleTag ⟨1, sampleInsertion, true⟩ (.ofLines sampleFile) = (.ok true, b') ∧
      ApplyCall.run sampleTag ⟨1, sampleInsertion, true⟩ b' = (.ok false, b') := by
  have hid : sampleTag.IsIdentifier := by unfold Tag.IsIdentifier; decide
  obtain ⟨hback, hagain⟩ := @apply_again sampleTag Nat _ recorded_sampleInsertion (by decide)
  refine ⟨_, rfl, (hagain (hback hid) (.ofLines sampleFile) _ 1 sampleSegments (by decide) (by decide) rfl).mpr ?_⟩
  rintro ⟨s, hs, hkind, hnone, hstop⟩
  revert s
  decide

/-- A line that is taken out, with nothing in its place. -/
def sampleOpen : List Text := ["// Mod-: Begin", "// int b;", "// Mod: End"]

/-- The line, in front of lines that are guarded. -/
def sampleGuarded : List Text := ["int b;", "// Mod: Begin", "int c;", "// Mod: End"]

/-- The record of the line that is taken out. -/
def sampleOpened : Record := { targetPath := "a.c", kind := .deletion, stock := ["int b;"] }

/-- An addition behind the line that is taken out becomes its replacement and is spliced in once more; a line that is
taken out in front of an addition is replaced by it, and is not found when it is to be taken out again. -/
theorem apply_adopted :
    Recorded (fun c => c ≠ char '\n') sampleTag sampleInsertion ∧
      Recorded (fun c => c ≠ char '\n') sampleTag sampleOpened ∧
      (∃ b' segments, Segment.parse sampleTag sampleOpen = .ok segments ∧
        (∀ s ∈ segments, ¬(s.start < 3 ∧ 3 < s.stop)) ∧
        ApplyCall.run sampleTag ⟨3, sampleInsertion, true⟩ (.ofLines sampleOpen) = (.ok true, b') ∧
        (ApplyCall.run sampleTag ⟨3, sampleInsertion, true⟩ b').1 = .ok true) ∧
      ∃ b' segments, Segment.parse sampleTag sampleGuarded = .ok segments ∧
        (∀ s ∈ segments, ¬(s.start < 0 ∧ 0 < s.stop)) ∧
        ApplyCall.run sampleTag ⟨0, sampleOpened, true⟩ (.ofLines sampleGuarded) = (.ok true, b') ∧
        (ApplyCall.run sampleTag ⟨0, sampleOpened, true⟩ b').1 = .error (.splice (.stockAbsent 0)) := by
  have hopened : sampleOpened ∈ buildRecords sampleOpen
      (((Segment.parse sampleTag sampleOpen).toOption).getD []) "a.c" 0 := by decide
  exact ⟨recorded_sampleInsertion, ⟨_, _, "a.c", 0, 0, by decide, rfl, _, hopened, rfl⟩,
    ⟨_, _, rfl, by decide, rfl, by decide⟩, ⟨_, _, rfl, by decide, rfl, by decide⟩⟩

end Regraft

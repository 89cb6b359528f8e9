import Regraft.Proofs.Record.Anchors
import Regraft.Proofs.Splice.Clear
/-!
# Recording what was applied

Recorded, cleared, applied and recorded again, a file has the records that it had. At their anchors in the stock
lines of the file, the guards of its records make the layout of the file again, but for the way in which deleted
lines are commented out (`placedLayout_atAnchors`). A record does not keep that way: it keeps of a segment what
`Segment.bare` keeps, so the records of both files are the same (`buildRecords_recommented`).

* `buildRecords_applyVersion`: the newest version is selected where it was recorded, every record goes to its
  anchor, and the patched file has the same records.
-/
namespace Regraft

/-! ## The layout at the anchors -/

/-- A piece with its deleted lines written again. -/
def Piece.recommented : Piece → Piece
  | .line t => .line t
  | .guard g => .guard g.recommented

/-- What segments put in place of their stock lines, where `cursor` is the next live line and `count` the number of
stock lines before it. -/
def editsFrom : Nat → Nat → List Segment → List (Edit Piece)
  | _, _, [] => []
  | cursor, count, s :: rest =>
    let anchor := count + (s.start - cursor)
    ⟨anchor, s.stock.length, s.guards.map Piece.guard⟩ :: editsFrom s.stop (anchor + s.stock.length) rest

/-- The guards of placed records, as edits. -/
def guardEdits (placed : List (Nat × Record)) : List (Edit Piece) :=
  editsOf (fun x => x.2.guards.map Piece.guard) placed

theorem guardEdits_recordsFrom (stock : List Text) (path : Text) (context : Nat) (segments : List Segment) :
    ∀ cursor count lower, guardEdits (atAnchors
      (recordsFrom stock path context lower (segments.zip (anchorsFrom cursor count segments)))) =
        editsFrom cursor count segments := by
  induction segments with
  | nil => intros; rfl
  | cons s rest ih =>
    intro cursor count lower
    simp only [anchorsFrom, List.zip_cons_cons, recordsFrom, atAnchors, guardEdits, editsOf, List.map_cons,
      editsFrom, s.record_anchor, s.record_extent, s.guards_record, Int.toNat_natCast]
    congr 1
    exact ih _ _ _

/-- A deletion and its replacement put the same guards in place as one segment or as two. -/
theorem weave_editsFrom_pair (pieces : List Piece) (segments : List Segment) :
    ∀ cursor count before, weave pieces before (editsFrom cursor count (Segment.pairReplacements segments)) =
      weave pieces before (editsFrom cursor count segments) := by
  fun_induction Segment.pairReplacements segments with
  | case1 d stock blanks a rest heq ih =>
    intro cursor count before
    have hstart : (Segment.addition a).start = (Segment.deletion d stock blanks none).stop := heq
    have hguards : (Segment.deletion d stock blanks (some a)).guards =
        (Segment.deletion d stock blanks none).guards ++ (Segment.addition a).guards := rfl
    have hnothing : ∀ k, (pieces.take k).drop k = [] := by
      intro k
      simp
    simp only [editsFrom, weave_cons, ih, hstart, Nat.sub_self, Nat.add_zero, hguards, List.map_append,
      List.append_assoc]
    simp only [Segment.start, Segment.guarded, Segment.stock, Segment.stop, List.length_nil, Nat.add_zero,
      hnothing, List.nil_append]
  | case2 d stock blanks a rest hne ih => intros; simp only [editsFrom, weave_cons] at ih ⊢; rw [ih]
  | case3 s rest hno ih => intros; simp only [editsFrom, weave_cons, ih]
  | case4 => intros; rfl

/-- The guards of a layout in place of its stock lines make the layout, with the deleted lines written again. -/
theorem weave_editsFrom_layout (layout : Layout) :
    ∀ (i cursor : Nat) (before behind : List Text), cursor ≤ i → behind.length = i - cursor →
      weave ((before ++ behind ++ layout.stock).map Piece.line) before.length
          (editsFrom cursor before.length (layout.segmentsFrom i)) =
        behind.map Piece.line ++ layout.map Piece.recommented := by
  induction layout with
  | nil =>
    intro i cursor before behind _ _
    simp [weave_nil, editsFrom, Layout.segmentsFrom, Layout.stock]
  | cons p layout ih =>
    intro i cursor before behind hc hlen
    cases p with
    | line t =>
      have := ih (i + 1) cursor before (behind ++ [t]) (by omega) (by simp; omega)
      simpa [Layout.segmentsFrom, Layout.stock, Piece.stock, Piece.recommented] using this
    | guard g =>
      have hanchor : before.length + (i - cursor) = (before ++ behind).length := by
        rw [List.length_append, hlen]
      have hnext := ih (i + g.height) (i + g.height) (before ++ behind ++ g.stock) [] le_rfl (by simp)
      have hstock : before ++ behind ++ g.stock ++ [] ++ Layout.stock layout =
          before ++ behind ++ Layout.stock (.guard g :: layout) := by
        simp [Layout.stock, Piece.stock]
      have htake : (((before ++ behind ++ Layout.stock (.guard g :: layout)).map Piece.line).take
          (before ++ behind).length).drop before.length = behind.map Piece.line := by
        rw [List.map_append, List.take_left' (by simp), List.map_append, List.drop_left' (by simp)]
      rw [hstock, @List.length_append _ _ g.stock] at hnext
      simp only [Layout.segmentsFrom, editsFrom, weave_cons, g.segment_start, g.segment_stop, g.segment_stock,
        g.segment_guards, hanchor, htake, hnext]
      simp [Piece.recommented]

/-! ## What is recorded of a segment -/

/-- A segment without the lines of its guard if these are deleted lines, whose stock it has beside them. -/
def Segment.bare : Segment → Segment
  | .addition g => .addition g
  | .deletion g stock blanks replacement => .deletion { g with body := [] } stock blanks replacement

namespace Segment

@[simp] theorem bare_start (s : Segment) : s.bare.start = s.start := by cases s <;> rfl

@[simp] theorem bare_stop (s : Segment) : s.bare.stop = s.stop := by
  cases s with
  | addition g => rfl
  | deletion g stock blanks replacement => cases replacement <;> rfl

@[simp] theorem bare_stock (s : Segment) : s.bare.stock = s.stock := by cases s <;> rfl

@[simp] theorem record_bare (s : Segment) (path : Text) (preceding following : List Text) (anchor : Nat) :
    s.bare.record path preceding following anchor = s.record path preceding following anchor := by
  cases s <;> rfl

theorem map_bare_pair (segments : List Segment) :
    (pairReplacements segments).map bare = pairReplacements (segments.map bare) := by
  fun_induction pairReplacements segments with
  | case1 d stock blanks a rest heq ih => simp [bare, pairReplacements, heq, ih]
  | case2 d stock blanks a rest hne ih =>
    rw [List.map_cons, ih]
    simp only [List.map_cons, bare]
    rw [pairReplacements, if_neg hne]
  | case3 s rest hno ih =>
    rw [List.map_cons, List.map_cons, ih]
    cases s with
    | addition g => rfl
    | deletion g stock blanks replacement =>
      cases replacement with
      | some r => rfl
      | none =>
        cases rest with
        | nil => rfl
        | cons s rest =>
          cases s with
          | addition a => exact (hno _ _ _ _ _ rfl rfl).elim
          | deletion g stock blanks replacement => rfl
  | case4 => rfl

end Segment

theorem anchorsFrom_bare (segments : List Segment) :
    ∀ cursor count, anchorsFrom cursor count (segments.map Segment.bare) = anchorsFrom cursor count segments := by
  induction segments with
  | nil => intros; rfl
  | cons s rest ih => intros; simp [anchorsFrom, ih]

theorem recordsFrom_bare (stock : List Text) (path : Text) (context : Nat) (pairs : List (Segment × Nat)) :
    ∀ lower, recordsFrom stock path context lower (pairs.map fun x => (x.1.bare, x.2)) =
      recordsFrom stock path context lower pairs := by
  induction pairs with
  | nil => intros; rfl
  | cons x pairs ih =>
    intro lower
    cases pairs with
    | nil => simp [recordsFrom]
    | cons y pairs =>
      have hrest := ih (x.2 + x.1.stock.length)
      rw [List.map_cons] at hrest ⊢
      rw [List.map_cons, recordsFrom, recordsFrom, Segment.record_bare, Segment.bare_stock, hrest]

/-- The records of a file are told by its stock lines and by what its segments keep of their guards. -/
theorem buildRecords_congr {lines lines' : List Text} {segments segments' : List Segment}
    (hstock : stockLines lines' segments' = stockLines lines segments)
    (hbare : segments'.map Segment.bare = segments.map Segment.bare) (path : Text) (context : Nat) :
    buildRecords lines' segments' path context = buildRecords lines segments path context := by
  have hrecords : ∀ (stock : List Text) (segments : List Segment),
      recordsFrom stock path context 0 (segments.zip (anchors segments)) =
        recordsFrom stock path context 0 ((segments.map Segment.bare).zip (anchors (segments.map Segment.bare))) := by
    intro stock segments
    rw [anchors, anchors, anchorsFrom_bare, List.zip_map_left, ← recordsFrom_bare]
    rfl
  rw [buildRecords, buildRecords, hstock, hrecords, hbare, ← hrecords]

theorem Guard.Fits.bare_segment_recommented {tag : Tag} {g : Guard} (h : g.Fits tag) (i : Nat) :
    (g.recommented.segment i).bare = (g.segment i).bare := by
  cases hd : g.deletion with
  | false => rw [recommented_of_addition hd]
  | true =>
    have hlines : g.recommented.lines = g.lines.map recomment := by simp [Guard.recommented, hd]
    have hd' : g.recommented.deletion = true := hd
    rw [segment, segment, if_pos hd', if_pos hd, hlines, h.map_restore_recomment hd, blankOffsets_map_recomment]
    simp only [Segment.bare, guarded, g.height_recommented]
    rfl

theorem map_bare_segmentsFrom {tag : Tag} {layout : Layout} (h : ∀ g, Piece.guard g ∈ layout → g.Fits tag) :
    ∀ i, (Layout.segmentsFrom i (layout.map Piece.recommented)).map Segment.bare =
      (layout.segmentsFrom i).map Segment.bare := by
  induction layout with
  | nil => intro i; rfl
  | cons p layout ih =>
    intro i
    have hrest := ih fun g hg => h g (List.mem_cons_of_mem _ hg)
    cases p with
    | line t => exact hrest _
    | guard g =>
      simp only [List.map_cons, Piece.recommented, Layout.segmentsFrom, g.height_recommented, hrest,
        (h g List.mem_cons_self).bare_segment_recommented]

/-! ## The cycle -/

section
variable {q : CodePoint → Prop} {tag : Tag} {lines : List Text} {layout : Layout} {segments : List Segment}
  {rs : List Record} {path : Text} {context : Nat}

/-- Spliced in at their anchors, the records of a file make its layout again. -/
theorem placedLayout_atAnchors (h : rs.map (fun r => { r with order := 0 }) =
      buildRecords lines (Segment.pairReplacements (layout.segmentsFrom 0)) path context) :
    placedLayout layout.stock 0 (atAnchors rs) = layout.map Piece.recommented := by
  have hedits : editsOf (fun x => x.2.guards.map Piece.guard) (atAnchors rs) =
      guardEdits (atAnchors (rs.map fun r => { r with order := 0 })) := by
    simp only [guardEdits, editsOf, atAnchors, List.map_map]
    rfl
  have hweave := weave_editsFrom_layout layout 0 0 [] [] le_rfl rfl
  rw [placedLayout, hedits, h, buildRecords, anchors, guardEdits_recordsFrom, weave_editsFrom_pair]
  exact hweave

/-- A file with its deleted lines written again has the same records. -/
theorem buildRecords_recommented {lines' : List Text} (hr : Reads tag lines layout)
    (hr' : Reads tag lines' (layout.map Piece.recommented)) (hf : ∀ p ∈ layout, p.Fits tag) :
    ∃ segments, Segment.parse tag lines' = .ok segments ∧ buildRecords lines' segments path context =
      buildRecords lines (Segment.pairReplacements (layout.segmentsFrom 0)) path context := by
  have hstock : (Layout.stock (layout.map Piece.recommented)) = layout.stock := by
    rw [Layout.stock, Layout.stock, List.flatMap_map]
    refine List.flatMap_congr fun p hp => ?_
    cases p with
    | line t => rfl
    | guard g => exact (hf _ hp).stock_recommented
  refine ⟨_, by rw [Segment.parse, hr'.scan 0]; rfl, buildRecords_congr ?_ ?_ path context⟩
  · rw [stockLines_of_reads hr rfl, stockLines_of_reads hr' rfl, hstock]
  · rw [Segment.map_bare_pair, Segment.map_bare_pair, map_bare_segmentsFrom fun g hg => hf _ hg]

theorem oneLine_stock (hf : ∀ p ∈ layout, p.Fits tag) : ∀ l ∈ layout.stock, OneLine l := by
  intro l hl
  obtain ⟨p, hp, hl⟩ := List.mem_flatMap.mp hl
  have hfits := hf p hp
  cases p with
  | line t =>
    obtain rfl := List.mem_singleton.mp hl
    exact hfits.1
  | guard g =>
    simp only [Piece.stock, Guard.stock] at hl
    split at hl
    · rename_i hd
      obtain ⟨line, hline, rfl⟩ := List.mem_map.mp hl
      exact oneLine_restore (Guard.Fits.restorable_of_mem hfits hd hline)
    · cases hl

/-- A record is anchored whatever its order is. -/
theorem anchored_of_order {r : Record} {order : Int} (h : Anchored lines { r with order }) : Anchored lines r :=
  ⟨h.nonneg, h.inside, h.fits, h.preceding, h.following⟩

/-- The records of a file, with any orders, are anchored in its stock lines. -/
theorem anchored_of_recorded (hparse : Segment.parse tag lines = .ok segments)
    (h : rs.map (fun r => { r with order := 0 }) = buildRecords lines segments path context) :
    (∀ r ∈ rs, Anchored (stockLines lines segments) r) ∧ Apart (atAnchors rs) := by
  obtain ⟨hanchored, hapart⟩ := anchored_buildRecords (spread_of_parse hparse).1 path context
  rw [← h] at hanchored hapart
  refine ⟨fun r hr => anchored_of_order (hanchored _ (List.mem_map_of_mem hr)), ?_⟩
  simpa only [Apart, atAnchors, List.isChain_map, Record.extent] using hapart

/-- The records of a file, with any orders, can be spliced in at their anchors. -/
theorem applicable_atAnchors (hid : tag.IsIdentifier) (hl : ∀ l ∈ lines, OneLine l)
    (hparse : Segment.parse tag lines = .ok segments)
    (hstock : Segment.parse tag (stockLines lines segments) = .ok [])
    (h : rs.map (fun r => { r with order := 0 }) = buildRecords lines segments path context) :
    Applicable (fun c => c ≠ char '\n') tag (stockLines lines segments) (atAnchors rs) := by
  obtain ⟨hanchored, hapart⟩ := anchored_of_recorded hparse h
  have hrecorded : ∀ x ∈ atAnchors rs, Recorded (fun c => c ≠ char '\n') tag x.2 := by
    intro x hx
    obtain ⟨r, hr, rfl⟩ := List.mem_map.mp hx
    refine ⟨lines, segments, path, context, r.order, hl, hparse, { r with order := 0 }, ?_, rfl⟩
    rw [← h]
    exact List.mem_map_of_mem hr
  have hplaceable : Placeable (stockLines lines segments) (atAnchors rs) := by
    refine ⟨hapart, fun x hx => ?_, fun x hx => ?_⟩
    · obtain ⟨r, hr, rfl⟩ := List.mem_map.mp hx
      exact (hanchored r hr).inside
    · obtain ⟨r, hr, rfl⟩ := List.mem_map.mp hx
      exact (hanchored r hr).fits
  obtain ⟨layout, hreads, hpair, hf⟩ := exists_layout hid (fun c => c ≠ char '\n') hl hl hparse
  refine applicable_of_recorded hid (fun _ hc => hc) ?_ hstock hrecorded hplaceable
  rw [stockLines_of_reads hreads hpair]
  exact oneLine_stock fun p hp => (hf p hp).1

/-- With its records spliced in at their anchors, a file has the same records. -/
theorem buildRecords_woven {σ : Type} (hid : tag.IsIdentifier) (hl : ∀ l ∈ lines, OneLine l)
    (hparse : Segment.parse tag lines = .ok segments)
    (hstock : Segment.parse tag (stockLines lines segments) = .ok [])
    (h : rs.map (fun r => { r with order := 0 }) = buildRecords lines segments path context)
    (sources : List (Option σ)) :
    ∃ found,
      Segment.parse tag (woven (stockLines lines segments) sources (Record.written tag) (atAnchors rs)).lines =
        .ok found ∧
      buildRecords (woven (stockLines lines segments) sources (Record.written tag) (atAnchors rs)).lines found path
        context = buildRecords lines segments path context := by
  have hreads' := reads_woven hid (applicable_atAnchors hid hl hparse hstock h)
  obtain ⟨layout, hreads, rfl, hf⟩ := exists_layout hid (fun c => c ≠ char '\n') hl hl hparse
  rw [woven]
  rw [stockLines_of_reads hreads rfl, placedLayout_atAnchors h] at hreads'
  rw [stockLines_of_reads hreads rfl]
  exact buildRecords_recommented hreads hreads' fun p hp => (hf p hp).1

theorem admissible_of_check {contentTolerance : ℚ} {lineTolerance : Option ℚ} {similarity : Similarity ℚ}
    {m : Matching ℚ} (h : Matching.check contentTolerance lineTolerance similarity = .ok m)
    (hs : Measure similarity) : m.Admissible := by
  unfold Matching.check at h
  split at h
  · cases h
  rename_i hcontent
  split at h
  · cases h
  rename_i hline
  obtain rfl := Except.ok.inj h
  simp only [not_not, Scale.ofNat, Nat.cast_zero] at hcontent
  refine ⟨hs, hcontent.1, fun limit hlimit => ?_⟩
  have hle : lineTolerance = some limit := hlimit
  simpa [hle, Scale.ofNat] using hline

end

/-- A file that is recorded, cleared and patched again has the records that it had. The matcher selects the version
of these records, if it is the newest one, and places each of them at its anchor, whichever measure it uses. -/
theorem buildRecords_applyVersion {tag : Tag} (hid : tag.IsIdentifier) {lines : List Text}
    (hl : ∀ l ∈ lines, OneLine l) {segments : List Segment} (hparse : Segment.parse tag lines = .ok segments)
    (hstock : Segment.parse tag (stockLines lines segments) = .ok []) {contentTolerance : ℚ}
    {lineTolerance : Option ℚ} {similarity : Similarity ℚ} {m : Matching ℚ}
    (hm : Matching.check contentTolerance lineTolerance similarity = .ok m)
    (hs : similarity = exactSimilarity ∨ similarity = blankSimilarity ∨ ∃ t, similarity = fuzzySimilarity t)
    {path : Text} {context : Nat} {versions : VersionSet} {v : Version} (hv : v ∈ versions.versions)
    (hr : v.records.map (fun r => { r with order := 0 }) = buildRecords lines segments path context)
    (hnew : ∀ w ∈ versions.versions, w ≠ v → w.order < v.order) (target : Text) :
    ∃ (pv : PlacedVersion ℚ) (patched : Sourced Nat) (found : List Segment),
      m.select (stockLines lines segments) versions target = .ok pv ∧ pv.version = v ∧
      pv.placed.map Placed.record = v.records ∧
      (∀ p ∈ pv.placed, (p.position : Int) = p.record.anchor ∧ p.score = 1 ∧ p.distance = 0) ∧
      applyVersion tag ⟨stockLines lines segments, (List.range (stockLines lines segments).length).map some⟩
        (pv.placed.map fun p => ((p.position : Int), p.record)) = .ok patched ∧
      Segment.parse tag patched.lines = .ok found ∧
      buildRecords patched.lines found path context = buildRecords lines segments path context := by
  have hmeasure : Measure similarity := by
    rcases hs with rfl | rfl | ⟨t, rfl⟩
    · exact measure_exact
    · exact measure_blank
    · exact measure_fuzzy t
  obtain ⟨hanchored, hapart⟩ := anchored_of_recorded hparse hr
  obtain ⟨pv, hselect, hversion, hplaces, hscored⟩ :=
    Matching.select_anchored (admissible_of_check hm hmeasure) hv hnew hanchored hapart target
  let sources := (List.range (stockLines lines segments).length).map some
  obtain ⟨found, hfound, hsame⟩ := buildRecords_woven hid hl hparse hstock hr sources
  have happly : applyVersion tag ⟨stockLines lines segments, sources⟩
      (pv.placed.map fun p => ((p.position : Int), p.record)) =
        .ok (woven (stockLines lines segments) sources (Record.written tag) (atAnchors v.records)) := by
    have hpairs : (pv.placed.map fun p => ((p.position : Int), p.record)) =
        (atAnchors v.records).map fun x => ((x.1 : Int), x.2) := by
      rw [← hplaces, PlacedVersion.places, List.map_map]
      rfl
    rw [hpairs]
    exact (applicable_atAnchors hid hl hparse hstock hr).applyVersion_eq (by simp [sources])
  have hrecords : pv.placed.map Placed.record = v.records := by
    have := congrArg (List.map Prod.snd) hplaces
    simpa [PlacedVersion.places, atAnchors, Function.comp_def] using this
  have hplaced : ∀ p ∈ pv.placed, (p.position : Int) = p.record.anchor := by
    intro p hp
    have hmem : (p.position, p.record) ∈ atAnchors v.records := by
      rw [← hplaces]
      exact List.mem_map_of_mem hp
    obtain ⟨r, hr, heq⟩ := List.mem_map.mp hmem
    obtain ⟨hposition, rfl⟩ := Prod.mk.inj heq
    rw [← hposition]
    exact Int.toNat_of_nonneg (hanchored _ hr).nonneg
  exact ⟨pv, _, found, hselect, hversion, hrecords, fun p hp => ⟨hplaced p hp, hscored p hp⟩, happly, hfound, hsame⟩

/-- The changes of the sample as its second version, with the order of the version on its records. -/
def sampleVersion : Version :=
  ⟨2, ⟨2024, 1, 1, 0, 0, 0, 0, none⟩,
    (buildRecords sampleFile sampleSegments "a.c" 1).map fun r => { r with order := 2 }⟩

/-- The version of the sample behind an older one, of the first change alone. -/
def sampleVersions : VersionSet :=
  ⟨"a.c", [⟨1, ⟨2023, 1, 1, 0, 0, 0, 0, none⟩, sampleVersion.records.take 1⟩, sampleVersion]⟩

theorem buildRecords_applyVersion_sample :
    ∃ (m : Matching ℚ) (pv : PlacedVersion ℚ) (patched : Sourced Nat) (found : List Segment),
      Matching.check (1 / 10) (some 3) exactSimilarity = .ok m ∧
      m.select (stockLines sampleFile sampleSegments) sampleVersions [] = .ok pv ∧ pv.version = sampleVersion ∧
      pv.placed.map Placed.record = sampleVersion.records ∧
      (∀ p ∈ pv.placed, (p.position : Int) = p.record.anchor ∧ p.score = 1 ∧ p.distance = 0) ∧
      applyVersion sampleTag ⟨stockLines sampleFile sampleSegments,
          (List.range (stockLines sampleFile sampleSegments).length).map some⟩
        (pv.placed.map fun p => ((p.position : Int), p.record)) = .ok patched ∧
      Segment.parse sampleTag patched.lines = .ok found ∧
      buildRecords patched.lines found "a.c" 1 = buildRecords sampleFile sampleSegments "a.c" 1 := by
  have hid : sampleTag.IsIdentifier := by unfold Tag.IsIdentifier; decide
  have hl : ∀ l ∈ sampleFile, OneLine l := by unfold OneLine; decide
  have hm : Matching.check (1 / 10) (some 3) exactSimilarity =
      .ok (⟨1 / 10, some 3, exactSimilarity⟩ : Matching ℚ) := by
    norm_num [Matching.check, Scale.ofNat]
  have hnew : ∀ w ∈ sampleVersions.versions, w ≠ sampleVersion → w.order < sampleVersion.order := by
    simp [sampleVersions, sampleVersion]
  have hparse : Segment.parse sampleTag sampleFile = .ok sampleSegments := by decide
  have hstock : Segment.parse sampleTag (stockLines sampleFile sampleSegments) = .ok [] := by decide
  have hv : sampleVersion ∈ sampleVersions.versions := by simp [sampleVersions]
  have hr : sampleVersion.records.map (fun r => { r with order := 0 }) =
      buildRecords sampleFile sampleSegments "a.c" 1 := by decide
  obtain ⟨pv, patched, found, h⟩ :=
    buildRecords_applyVersion hid hl hparse hstock hm (.inl rfl) hv hr hnew []
  exact ⟨_, pv, patched, found, hm, h⟩

end Regraft

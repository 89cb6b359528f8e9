import Regraft.Splice.Content
import Regraft.Proofs.Guard.Written
import Regraft.Proofs.Match.Selection
import Regraft.Proofs.Splice.Clear
import Regraft.Proofs.Text.Reread
import Regraft.Proofs.Text.Whole
/-!
# Applying and clearing a content

Between a content without guards and the content with a version applied there is no third one: applying leads from
both to the second one, clearing leads from both back to the first one, with every byte as it was.

* `Applicable.inLine`, `Applicable.getLast?_woven`: patched lines can be written with line ends and read back;
* `Patched`: what the two contents have to do with each other;
* `exists_patched`: where a version is selected, there is a patched content.
-/
namespace Regraft

section
variable {tag : Tag}

/-! ## Patched lines -/

theorem mem_renderedSources {σ : Type} {r : Record} {known : List (Option σ)} {count : Nat} {source : Option σ}
    (h : source ∈ r.renderedSources known count) : source = none ∨ source ∈ known := by
  unfold Record.renderedSources at h
  cases hk : r.kind with
  | addition =>
    rw [hk] at h
    exact .inl (List.eq_of_mem_replicate h)
  | deletion =>
    simp only [hk, List.mem_append] at h
    rcases h with ((h | h) | h) | h
    · split at h
      · cases h
      · exact .inl (List.mem_singleton.mp h)
    · exact .inr h
    · split at h
      · exact .inl (List.mem_singleton.mp h)
      · cases h
    · exact .inl (List.eq_of_mem_replicate h)

theorem Record.MadeOf.guards_inLine {r : Record} {g : Guard} {rest : List Guard} (h : r.MadeOf InLine tag g rest) :
    ∀ a ∈ r.guards, a.Over InLine := by
  intro a ha
  rw [h.guards] at ha
  rcases List.mem_cons.mp ha with rfl | ha
  · exact h.fits.2.recommented (by decide) (by decide)
  · exact (h.replaces a ha).2.2

section
variable {σ : Type} {lines : List Text} {sources : List (Option σ)} {placed : List (Nat × Record)}

theorem mem_sources_woven {source : Option σ}
    (hs : source ∈ (woven lines sources (Record.written tag) placed).sources) : source = none ∨ source ∈ sources := by
  rcases mem_weave hs with hs | ⟨e, he, hs⟩
  · exact .inr hs
  · obtain ⟨x, hx, rfl⟩ := List.mem_map.mp he
    rcases mem_renderedSources hs with hs | hs
    · exact .inl hs
    · exact .inr (List.mem_of_mem_drop (List.mem_of_mem_take hs))

/-- Every patched line has a source, if only an empty one. -/
theorem Applicable.length_sources {q : CodePoint → Prop} (h : Applicable q tag lines placed)
    (hlen : sources.length = lines.length) :
    (woven lines sources (Record.written tag) placed).sources.length =
      (woven lines sources (Record.written tag) placed).lines.length := by
  refine length_weave_congr hlen (fun x hx => ?_) 0
  obtain ⟨g, rest, hm⟩ := h.recorded x hx
  have hle := add_extent_le (h.placeable.inside x hx) (h.placeable.present x hx)
  have hknown : ((sources.drop x.1).take x.2.extent).length = x.2.extent := by
    rw [List.length_take, List.length_drop, hlen]
    omega
  exact (hm.picks hknown [] []).2

/-- Patched lines hold characters of a line only, if the lines do that were patched. -/
theorem Applicable.inLine (hid : tag.IsIdentifier) (h : Applicable InLine tag lines placed)
    (hl : ∀ l ∈ lines, ∀ c ∈ l, InLine c) :
    ∀ l ∈ (woven lines sources (Record.written tag) placed).lines, ∀ c ∈ l, InLine c := by
  intro l hmem
  rcases mem_weave hmem with hmem | ⟨e, he, hmem⟩
  · exact hl l hmem
  · obtain ⟨x, hx, rfl⟩ := List.mem_map.mp he
    obtain ⟨g, rest, hm⟩ := h.recorded x hx
    obtain ⟨a, ha, hmem⟩ := List.mem_flatMap.mp hmem
    exact (hm.guards_inLine a ha).inLine_written hid l hmem

/-- Patched lines do not end with an empty line, if the lines do not that were patched. -/
theorem Applicable.getLast?_woven {q : CodePoint → Prop} (h : Applicable q tag lines placed)
    (hl : ∀ l ∈ lines.getLast?, l ≠ []) :
    ∀ l ∈ (woven lines sources (Record.written tag) placed).lines.getLast?, l ≠ [] := by
  have hne : ∀ e ∈ editsOf (fun x => x.2.written tag) placed, e.new ≠ [] := by
    intro e he
    obtain ⟨x, hx, rfl⟩ := List.mem_map.mp he
    obtain ⟨g, rest, hm⟩ := h.recorded x hx
    have hfits := h.guards_fit hx
    rw [hm.guards] at hfits
    have hfirst := (hfits _ List.mem_cons_self).getLast?_written.1
    simp only [Record.written, hm.guards, List.flatMap_cons, ne_eq, List.append_eq_nil_iff, not_and]
    exact fun hnil => absurd hnil hfirst
  intro l hlast
  rcases mem_getLast?_weave hne hlast with hlast | ⟨e, he, hlast⟩
  · exact hl l hlast
  · obtain ⟨x, hx, rfl⟩ := List.mem_map.mp he
    exact getLast?_flatMap_written (h.guards_fit hx) l hlast

end

/-! ## Contents -/

theorem mem_of_mem_line {t line : Text} (hline : line ∈ (Buffer.ofText t).lines) {c : CodePoint} (hc : c ∈ line) :
    c ∈ t := by
  obtain ⟨row, hrow, rfl⟩ := List.mem_map.mp hline
  rw [← Buffer.render_ofText t]
  exact List.mem_flatMap.mpr ⟨row, hrow, List.mem_append_left _ hc⟩

/-- The lines of a content with characters alone, whose carriage returns end lines, are lines of a file. -/
theorem inLine_of_content {t : Text} (hreturns : ReturnsEnd t) (hchars : ∀ c ∈ t, c.isHalf = false) :
    ∀ l ∈ (Buffer.ofText t).lines, ∀ c ∈ l, InLine c := by
  intro l hl c hc
  have hhalf := hchars c (mem_of_mem_line hl hc)
  obtain ⟨row, hrow, rfl⟩ := List.mem_map.mp hl
  have hline := (Buffer.readable_rowsOf hreturns).unbroken row hrow c hc
  exact ⟨hline.1, hline.2, hhalf⟩

theorem isWhole_lines {t : Text} (h : t.IsWhole) : ∀ l ∈ (Buffer.ofText t).lines, l.IsWhole :=
  fun _ hl c hc => h c (mem_of_mem_line hl hc)

theorem isWhole_render {b : Buffer} (h : ∀ l ∈ b.lines, l.IsWhole) : b.render.IsWhole := by
  intro c hc
  obtain ⟨row, hrow, hc⟩ := List.mem_flatMap.mp hc
  rcases List.mem_append.mp hc with hc | hc
  · exact h row.line (List.mem_map_of_mem hrow) c hc
  · cases hending : row.ending with
    | none => simp [hending] at hc
    | some e =>
      rw [hending] at hc
      cases e <;> simp [Newline.text] at hc <;> rcases hc with rfl | rfl <;> rfl

/-- Lines without segments are their own stock lines. -/
theorem clearLines_of_parse_nil {lines : List Text} (h : Segment.parse tag lines = .ok []) :
    clearLines tag lines = .ok ⟨lines, (List.range lines.length).map some⟩ := by
  simp [clearLines, h, bind, Except.bind, pure, Except.pure, stockLines, stockLinesFrom, stockSources,
    stockSourcesFrom, List.range_eq_range']

theorem lt_of_mem_map_some {sources : List Nat} {count : Nat} (h : ∀ j ∈ sources, j < count) :
    ∀ source ∈ sources.map some, ∀ i ∈ source, i < count := by
  intro source hsource i hi
  obtain ⟨j, hj, rfl⟩ := List.mem_map.mp hsource
  obtain rfl : j = i := by simpa using hi
  exact h j hj

/-- What applying a version comes to, for a content whose stock lines are known. -/
theorem appliedContent_eq {q : CodePoint → Prop} {m : Matching Float} {versions : VersionSet} {before target : Text}
    {lines : List Text} {sources : List Nat} {selected : PlacedVersion Float}
    (hclear : clearLines tag (Buffer.ofText before).lines = .ok ⟨lines, sources.map some⟩)
    (hlen : sources.length = lines.length) (hs : ∀ j ∈ sources, j < (Buffer.ofText before).rows.length)
    (hselect : m.select lines versions target = .ok selected) (h : Applicable q tag lines selected.places) :
    appliedContent tag m versions before =
      (contentWith before (Buffer.ofText before)
        (woven lines (sources.map some) (Record.written tag) selected.places)).map
          fun content => (content, selected.version.order) := by
  have hlen' : (sources.map some).length = lines.length := by rwa [List.length_map]
  have hplaces : (selected.placed.map fun p => ((p.position : Int), p.record)) =
      selected.places.map fun x => ((x.1 : Int), x.2) := by
    rw [PlacedVersion.places, List.map_map]
    rfl
  simp only [appliedContent, hclear, Buffer.withLines_eq hlen' (lt_of_mem_map_some hs), Except.mapError, bind, Except.bind,
    Matching.select_retarget hselect, hplaces, h.applyVersion_eq hlen']
  cases contentWith before (Buffer.ofText before)
    (woven lines (sources.map some) (Record.written tag) selected.places) <;> rfl

theorem clearedContent_eq {before : Text} {lines : List Text} {sources : List Nat}
    (hclear : clearLines tag (Buffer.ofText before).lines = .ok ⟨lines, sources.map some⟩) :
    clearedContent tag before = contentWith before (Buffer.ofText before) ⟨lines, sources.map some⟩ := by
  simp only [clearedContent, hclear, Except.mapError, bind, Except.bind]

theorem contentWith_same {before : Text} {b : Buffer} {new : Sourced Nat} (h : new.lines = b.lines) :
    contentWith before b new = .ok before := by
  rw [contentWith, if_pos h]

theorem contentWith_other {before : Text} {b : Buffer} {new : Sourced Nat} (h : new.lines ≠ b.lines)
    (hlen : new.sources.length = new.lines.length) (hs : ∀ source ∈ new.sources, ∀ i ∈ source, i < b.rows.length) :
    contentWith before b new = .ok ((b.sourcedRows new.lines new.sources).flatMap Row.render) := by
  rw [contentWith, if_neg h, Buffer.withLines_eq hlen hs]
  rfl

/-! ## Both contents -/

/-- A content without a version and the content with it: applying leads to the second one, clearing to the first. -/
structure Patched (tag : Tag) (m : Matching Float) (versions : VersionSet) (before after : Text) (order : Int) :
    Prop where
  apply : appliedContent tag m versions before = .ok (after, order)
  reapply : appliedContent tag m versions after = .ok (after, order)
  clear : clearedContent tag after = .ok before
  reclear : clearedContent tag before = .ok before

variable {m : Matching Float} {versions : VersionSet} {before target : Text} {selected : PlacedVersion Float}

/-- A selected version of recorded changes can be spliced into lines without guards. -/
theorem applicable_of_select {q : CodePoint → Prop} (hid : tag.IsIdentifier) (hq : ∀ c, q c → c ≠ char '\n')
    {lines : List Text} (hl : ∀ l ∈ lines, OneLine l) (hplain : Segment.parse tag lines = .ok [])
    (hr : ∀ v ∈ versions.versions, ∀ r ∈ v.records, Recorded q tag r)
    (h : m.select lines versions target = .ok selected) : Applicable q tag lines selected.places := by
  obtain ⟨hv, hf⟩ := Matching.select_feasible h
  have hrecorded : ∀ x ∈ selected.places, Recorded q tag x.2 := by
    intro x hx
    refine hr _ hv x.2 ?_
    rw [← hf.records]
    exact List.mem_map_of_mem hx
  exact applicable_of_recorded hid hq hl hplain hrecorded hf.placeable

/-- Where a version of recorded changes is selected for a content without guards, there is a content with the
version. -/
theorem exists_patched (hid : tag.IsIdentifier) (hreturns : ReturnsEnd before)
    (hchars : ∀ c ∈ before, c.isHalf = false) (hplain : Segment.parse tag (Buffer.ofText before).lines = .ok [])
    (hr : ∀ v ∈ versions.versions, ∀ r ∈ v.records, Recorded InLine tag r)
    (h : m.select (Buffer.ofText before).lines versions target = .ok selected) :
    ∃ after, Patched tag m versions before after selected.version.order ∧ ∀ c ∈ after, c.isHalf = false := by
  let b := Buffer.ofText before
  have hreadable : Readable b.rows := Buffer.readable_rowsOf hreturns
  have hline := inLine_of_content hreturns hchars
  have happly := applicable_of_select hid (fun c hc => hc.1) (fun l hl c hc => (hline l hl c hc).1) hplain hr h
  have hcount : b.lines.length = b.rows.length := List.length_map _
  have hclear := clearLines_of_parse_nil hplain
  have hlen : ((List.range b.lines.length).map some).length = b.lines.length := by simp
  let w := woven b.lines ((List.range b.lines.length).map some) (Record.written tag) selected.places
  have hfirst := appliedContent_eq hclear (by simp) (by simp [b, hcount]) h happly
  have hreclear : clearedContent tag before = .ok before := by
    rw [clearedContent_eq hclear, contentWith_same rfl]
  by_cases hsame : w.lines = b.lines
  · rw [contentWith_same hsame] at hfirst
    exact ⟨before, ⟨hfirst, hfirst, hreclear, hreclear⟩, hchars⟩
  have hwlen : w.sources.length = w.lines.length := happly.length_sources hlen
  have hwin : ∀ source ∈ w.sources, ∀ i ∈ source, i < b.rows.length := by
    intro source hsource i hi
    rcases mem_sources_woven hsource with rfl | hsource
    · cases hi
    · exact hcount ▸ lt_of_mem_map_some (fun j hj => List.mem_range.mp hj) source hsource i hi
  have hwline : ∀ l ∈ w.lines, ∀ c ∈ l, InLine c := happly.inLine hid hline
  -- The patched content is read into the rows that it was rendered from.
  let after := (b.sourcedRows w.lines w.sources).flatMap Row.render
  have hunbroken : ∀ l ∈ w.lines, Unbroken l := fun l hl c hc => ⟨(hwline l hl c hc).1, (hwline l hl c hc).2.1⟩
  have hlast : b.endsWithNewline = false → ∀ l ∈ w.lines.getLast?, l ≠ [] :=
    fun hkeep => happly.getLast?_woven (Buffer.getLast?_lines hreadable hkeep)
  obtain ⟨hrows, hlines⟩ : (Buffer.ofText after).rows = b.sourcedRows w.lines w.sources ∧
      (Buffer.ofText after).lines = w.lines := Buffer.ofText_sourcedRows hwlen hunbroken hlast
  -- Its stock lines come from the lines that have them as their sources.
  let origins := (placedLayout b.lines 0 selected.places).sourcesFrom 0
  have hclear' : clearLines tag (Buffer.ofText after).lines = .ok ⟨b.lines, origins.map some⟩ :=
    hlines ▸ happly.clearLines_eq hid
  obtain ⟨horigins, hback⟩ : origins.length = b.lines.length ∧ ∀ i j : Nat, origins[i]? = some j →
      w.sources[j]? = some (some i) := happly.origins
  have horiginsIn : ∀ j ∈ origins, j < (Buffer.ofText after).rows.length := by
    intro j hj
    obtain ⟨i, hi⟩ := List.getElem?_of_mem hj
    rw [hrows, Buffer.length_sourcedRows hwlen, ← hwlen]
    exact (List.getElem?_eq_some_iff.mp (hback i j hi)).1
  refine ⟨after, ⟨?_, ?_, ?_, hreclear⟩, ?_⟩
  · rw [hfirst, contentWith_other hsame hwlen hwin]
    rfl
  · have hagain : (woven b.lines (origins.map some) (Record.written tag) selected.places).lines =
        (Buffer.ofText after).lines := hlines.symm
    rw [appliedContent_eq hclear' horigins horiginsIn h happly, contentWith_same hagain]
    rfl
  · have hrestored := Buffer.sourcedRows_restored hreadable hwlen hrows (horigins.trans hcount)
      (Layout.sourcesFrom_ascending _ 0) hback
    rw [clearedContent_eq hclear', contentWith_other (hlines ▸ Ne.symm hsame)]
    · exact congrArg Except.ok ((congrArg _ hrestored).trans (Buffer.render_ofText before))
    · simpa using horigins
    · exact lt_of_mem_map_some horiginsIn
  · refine @isWhole_render ⟨b.sourcedRows w.lines w.sources, b.newline⟩ ?_
    rw [Buffer.lines, Buffer.map_line_sourcedRows hwlen]
    exact fun l hl c hc => (hwline l hl c hc).2.2

end

end Regraft

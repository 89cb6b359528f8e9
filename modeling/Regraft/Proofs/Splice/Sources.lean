import Regraft.Proofs.Fallible
import Regraft.Proofs.Record.Whole
import Regraft.Proofs.Splice.Content
/-!
# Sources of spliced lines

Whatever the tag is and whatever records are spliced in, each line keeps a source, and the sources are lines of the
file. So the line ends of the new lines can always be found: a content is refused for its guards, or for a record that
has no place or does not fit there, and for nothing else.

* `within_clearLines`, `within_applyVersion`: every line has a source, and it is a line of the file;
* `clearedContent_total`, `appliedContent_total`: what applying and clearing come to, for any content.
-/
namespace Regraft

/-- Lines with a source for each, all of them among so many lines. -/
structure Sourced.Within (count : Nat) (b : Sourced Nat) : Prop where
  length : b.sources.length = b.lines.length
  sources : ∀ source ∈ b.sources, ∀ i ∈ source, i < count

section
variable {tag : Tag} {count : Nat}

/-! ## Cleared lines -/

theorem Piece.length_sources (p : Piece) (i : Nat) : (p.sources i).length = p.stock.length := by
  cases p with
  | line t => rfl
  | guard g => exact List.length_range'

theorem Layout.length_sourcesFrom (layout : Layout) : ∀ i, (layout.sourcesFrom i).length = layout.stock.length := by
  induction layout with
  | nil => exact fun _ => rfl
  | cons p layout ih =>
    intro i
    simp only [sourcesFrom, List.length_append, p.length_sources, ih]
    simp [stock]

theorem Piece.length_stock_le (p : Piece) : p.stock.length ≤ p.height := by
  cases p with
  | line t => exact le_rfl
  | guard g =>
    have hlines := g.length_le_height
    simp only [stock, Guard.stock, height]
    split <;> simp [hlines]

theorem Layout.length_stock_le (layout : Layout) : layout.stock.length ≤ layout.height := by
  induction layout with
  | nil => exact le_rfl
  | cons p layout ih =>
    have hp := p.length_stock_le
    simp only [stock, List.flatMap_cons, List.length_append, height_cons] at ih ⊢
    omega

/-- Cleared lines come from lines of the file, and there are no more of them. -/
theorem within_clearLines {lines : List Text} {cleared : Sourced Nat} (h : clearLines tag lines = .ok cleared) :
    cleared.Within lines.length ∧ cleared.lines.length ≤ lines.length := by
  obtain ⟨split, hsplit, rfl⟩ := exists_splits_of_clearLines h
  rw [hsplit.reads.length]
  refine ⟨⟨?_, lt_of_mem_map_some fun j hj => ?_⟩, Layout.length_stock_le _⟩
  · rw [List.length_map, Layout.length_sourcesFrom]
  · simpa using (Layout.sourcesFrom_within _ hj).2

theorem isWhole_clearLines {lines : List Text} {cleared : Sourced Nat} (h : clearLines tag lines = .ok cleared)
    (hlines : ∀ l ∈ lines, l.IsWhole) : ∀ l ∈ cleared.lines, l.IsWhole := by
  obtain ⟨split, hsplit, rfl⟩ := exists_splits_of_clearLines h
  exact hsplit.over_stock hlines

/-! ## Spliced lines -/

/-- The number of lines that the comments of a guard take. -/
def GuardStyle.commentLines : GuardStyle → Nat
  | block => 2
  | singleLine => 0
  | nextLine => 1

theorem length_guardLines {style : GuardStyle} {indent comment : Text} {lines out : List Text} {deletion : Bool}
    (h : guardLines tag style indent comment lines deletion = .ok out) :
    out.length = lines.length + style.commentLines := by
  unfold guardLines at h
  split at h
  · obtain rfl := Except.ok.inj h
    simp [GuardStyle.commentLines]
  · obtain rfl := Except.ok.inj h
    rfl
  · obtain rfl := Except.ok.inj h
    rfl
  · cases h

/-- A deletion is rendered with a line for each line of its stock. -/
theorem Record.length_render {r : Record} {rendered : List Text} (hkind : r.kind = .deletion)
    (h : r.render tag = .ok rendered) : r.stock.length + r.style.commentLines ≤ rendered.length := by
  obtain ⟨deleted, inserted, hdeleted, rfl, -⟩ := exists_of_render hkind h
  have hlength := length_guardLines hdeleted
  simp only [commentedStock, List.length_map, List.length_zipIdx] at hlength
  rw [List.length_append]
  omega

/-- Rendered lines have a source each, if there are enough of them for the stock. -/
theorem Record.length_renderedSources {σ : Type} {r : Record} {known : List (Option σ)} {count : Nat}
    (h : r.kind = .deletion → known.length + r.style.commentLines ≤ count) :
    (r.renderedSources known count).length = count := by
  unfold renderedSources
  cases hkind : r.kind with
  | addition => exact List.length_replicate
  | deletion =>
    have hle := h hkind
    cases hstyle : r.style <;> simp [hstyle, GuardStyle.commentLines] at hle ⊢ <;> omega

section
variable {σ : Type} {b b' : Sourced σ} {r : Record}

/-- What splicing in a record comes to: the rendered lines stand in the place of the stock. -/
theorem spliceRecord_eq_ok {position : Nat} (h : spliceRecord tag b position r = .ok b') :
    ∃ rendered, r.render tag = .ok rendered ∧
      (r.extent ≠ 0 → (b.lines.drop position).take r.extent = r.stock) ∧
      b' = ⟨replaceSpan b.lines position r.extent rendered,
        replaceSpan b.sources position r.extent
          (r.renderedSources ((b.sources.drop position).take r.extent) rendered.length)⟩ := by
  unfold spliceRecord at h
  cases hrendered : r.render tag with
  | error e =>
    rw [hrendered] at h
    cases h
  | ok rendered =>
    simp only [hrendered, bind, Except.bind] at h
    split at h
    · cases h
    · rename_i hstock
      simp only [not_and, ne_eq, not_not] at hstock
      exact ⟨rendered, rfl, hstock, (Except.ok.inj h).symm⟩

/-- What holds of the stock lines, and stays when a record is spliced in, holds when all are. -/
theorem applyVersion_induct {P : Sourced σ → Prop} {placed : List (Int × Record)}
    (hstep : ∀ x ∈ placed, ∀ b b' position, P b → spliceRecord tag b position x.2 = .ok b' → P b')
    (hstock : P b) (h : applyVersion tag b placed = .ok b') : P b' := by
  have hrecord : ∀ n ∈ spliceOrder placed, ∃ x ∈ placed, x.2 = n.record := by
    intro n hn
    obtain ⟨⟨x, i⟩, hx, rfl⟩ := List.mem_map.mp (List.mem_mergeSort.mp hn)
    exact ⟨x, List.fst_mem_of_mem_zipIdx hx, rfl⟩
  unfold applyVersion at h
  generalize spliceOrder placed = ns at h hrecord
  induction ns generalizing b with
  | nil => exact Except.ok.inj h ▸ hstock
  | cons n ns ih =>
    rw [List.foldlM_cons] at h
    obtain ⟨x, hx, hn⟩ := hrecord n List.mem_cons_self
    cases hplaced : splicePlaced tag b n.position n.record with
    | error e =>
      rw [hplaced] at h
      cases h
    | ok b₁ =>
      rw [hplaced] at h
      refine ih ?_ h fun n hn => hrecord n (List.mem_cons_of_mem _ hn)
      unfold splicePlaced at hplaced
      cases hplace : placeIn b.lines n.position with
      | error e =>
        rw [hplace] at hplaced
        cases hplaced
      | ok position =>
        rw [hplace, ← hn] at hplaced
        exact hstep x hx b b₁ position hstock hplaced

end

theorem mem_replaceSpan {α : Type} {xs new : List α} {start count : Nat} {x : α}
    (h : x ∈ replaceSpan xs start count new) : x ∈ xs ∨ x ∈ new := by
  rcases List.mem_append.mp h with h | h
  · exact (List.mem_append.mp h).imp_left List.mem_of_mem_take
  · exact .inl (List.mem_of_mem_drop h)

/-- Splicing in a record keeps a source for each line. -/
theorem length_sources_spliceRecord {σ : Type} {b b' : Sourced σ} {r : Record} {position : Nat}
    (hb : b.sources.length = b.lines.length) (h : spliceRecord tag b position r = .ok b') :
    b'.sources.length = b'.lines.length := by
  obtain ⟨rendered, hrendered, -, rfl⟩ := spliceRecord_eq_ok h
  have hsources : (r.renderedSources ((b.sources.drop position).take r.extent) rendered.length).length =
      rendered.length := by
    refine Record.length_renderedSources fun hkind => ?_
    have hextent : r.extent = r.stock.length := by rw [Record.extent, hkind]
    refine le_trans ?_ (Record.length_render hkind hrendered)
    rw [List.length_take, hextent]
    omega
  simp only [replaceSpan, List.length_append, List.length_take, List.length_drop, hsources, hb]

variable {b b' : Sourced Nat} {r : Record}

theorem within_spliceRecord {position : Nat} (hb : b.Within count) (h : spliceRecord tag b position r = .ok b') :
    b'.Within count := by
  refine ⟨length_sources_spliceRecord hb.length h, fun source hsource => ?_⟩
  obtain ⟨rendered, -, -, rfl⟩ := spliceRecord_eq_ok h
  rcases mem_replaceSpan hsource with hsource | hsource
  · exact hb.sources source hsource
  · rcases mem_renderedSources hsource with rfl | hsource
    · simp
    · exact hb.sources source (List.mem_of_mem_drop (List.mem_of_mem_take hsource))

/-- Every line of a patched file has a source, and it is a line of the file. -/
theorem within_applyVersion {placed : List (Int × Record)} (hb : b.Within count)
    (h : applyVersion tag b placed = .ok b') : b'.Within count :=
  applyVersion_induct (fun _ _ _ _ _ hb h => within_spliceRecord hb h) hb h

/-- The lines of a patched file are made of characters of the file, of the records and of guard comments. -/
theorem over_applyVersion {q : CodePoint → Prop} {placed : List (Int × Record)}
    (hmarks : ∀ c ∈ ("// -: Begin End" : Text), q c) (htag : placed ≠ [] → ∀ c ∈ tag.text, q c)
    (hrecords : ∀ x ∈ placed, ∀ t ∈ x.2.texts, ∀ c ∈ t, q c) (hb : ∀ l ∈ b.lines, ∀ c ∈ l, q c)
    (h : applyVersion tag b placed = .ok b') : ∀ l ∈ b'.lines, ∀ c ∈ l, q c := by
  refine applyVersion_induct (P := fun b => ∀ l ∈ b.lines, ∀ c ∈ l, q c) (fun x hx b b' position hb h => ?_) hb h
  obtain ⟨rendered, hrendered, -, rfl⟩ := spliceRecord_eq_ok h
  have hover := Record.over_render hmarks (htag (List.ne_nil_of_mem hx)) (hrecords x hx) hrendered
  intro l hl
  exact (mem_replaceSpan hl).elim (hb l) (hover l)

/-! ## Contents -/

/-- A content with other lines is found, if these have sources, and is whole if they are. -/
theorem contentWith_total {before : Text} {buffer : Buffer} {new : Sourced Nat} (hnew : new.Within buffer.rows.length)
    (hbefore : before.IsWhole) (hlines : ∀ l ∈ new.lines, l.IsWhole) :
    ∃ content, contentWith before buffer new = .ok content ∧ content.IsWhole := by
  by_cases hsame : new.lines = buffer.lines
  · exact ⟨before, contentWith_same hsame, hbefore⟩
  · refine ⟨_, contentWith_other hsame hnew.length hnew.sources, ?_⟩
    refine @isWhole_render ⟨buffer.sourcedRows new.lines new.sources, buffer.newline⟩ ?_
    rwa [Buffer.lines, Buffer.map_line_sourcedRows hnew.length]

theorem contentWith_ne_select (before : Text) (b : Buffer) (new : Sourced Nat) (fault : SelectFault Float) :
    contentWith before b new ≠ .error (.select fault) := by
  intro h
  unfold contentWith at h
  split at h
  · cases h
  · split at h <;> cases h

/-- A content to which no version can be chosen: the choice fails for its stock lines, and knows their text. -/
theorem select_of_appliedContent {tag : Tag} {m : Matching Float} {versions : VersionSet} {before : Text}
    {fault : SelectFault Float} (h : appliedContent tag m versions before = .error (.select fault)) :
    ∃ stock target, clearLines tag (Buffer.ofText before).lines = .ok stock ∧
      (Buffer.ofText before).withLines stock.lines stock.sources = .ok target ∧
      m.select stock.lines versions target.render = .error fault := by
  unfold appliedContent at h
  rcases bind_eq_error.mp h with h | ⟨stock, hstock, h⟩
  · obtain ⟨_, -, heq⟩ := mapError_eq_error.mp h
    cases heq
  rcases bind_eq_error.mp h with h | ⟨target, htarget, h⟩
  · obtain ⟨_, -, heq⟩ := mapError_eq_error.mp h
    cases heq
  rcases bind_eq_error.mp h with h | ⟨selected, -, h⟩
  · obtain ⟨fault', hselect, heq⟩ := mapError_eq_error.mp h
    obtain rfl := ContentFault.select.inj heq
    exact ⟨stock, target, mapError_eq_ok.mp hstock, mapError_eq_ok.mp htarget, hselect⟩
  rcases bind_eq_error.mp h with h | ⟨patched, -, h⟩
  · obtain ⟨_, -, heq⟩ := mapError_eq_error.mp h
    cases heq
  rcases bind_eq_error.mp h with h | ⟨content, -, h⟩
  · exact absurd h (contentWith_ne_select _ _ _ _)
  · cases h

/-- A fault of the file: a guard that cannot be made out, or a record that has no place or does not fit there. -/
inductive ContentFault.OfFile : ContentFault → Prop
  | malformed (e : MalformedGuard) : OfFile (.malformed e)
  | conflict (report : Conflict Float) : OfFile (.select (.conflict report))
  | splice (e : SpliceFault) : OfFile (.splice e)

/-- Clearing finds a whole content, or a fault of the file. -/
theorem clearedContent_total (tag : Tag) {before : Text} (hbefore : before.IsWhole) :
    (∃ content, clearedContent tag before = .ok content ∧ content.IsWhole) ∨
      ∃ fault, clearedContent tag before = .error fault ∧ fault.OfFile := by
  cases hclear : clearLines tag (Buffer.ofText before).lines with
  | error e =>
    simp only [clearedContent, hclear, Except.mapError, bind, Except.bind]
    exact .inr ⟨_, rfl, .malformed e⟩
  | ok cleared =>
    have hlines := isWhole_clearLines hclear (isWhole_lines hbefore)
    have hwithin := (within_clearLines hclear).1
    rw [Buffer.lines, List.length_map] at hwithin
    simp only [clearedContent, hclear, Except.mapError, bind, Except.bind]
    exact .inl (contentWith_total hwithin hbefore hlines)

/-- The distance of an anchor from every line of a text of so many characters is a number on the scale. -/
def Record.InReach (size : Nat) (r : Record) : Prop := r.anchor.natAbs + size < Binary64.overflowBound

theorem Record.InReach.offScale {size : Nat} (h : r.InReach size) (m : Matching Float) {lines : List Text}
    (hlines : lines.length ≤ size) : m.offScale lines r = false := by
  have hreach : r.anchor.natAbs + size < Binary64.overflowBound := h
  have hfar : ((lines.length : Int) - r.anchor).natAbs ≤ r.anchor.natAbs + size := by omega
  simp only [Matching.offScale, Scale.reaches, Bool.or_eq_false_iff, Bool.not_eq_false', decide_eq_true_eq]
  exact ⟨by omega, by omega⟩

theorem meetsOffScale_of_inReach {size : Nat} (m : Matching Float) {lines : List Text} (hlines : lines.length ≤ size)
    {rs : List Record} (h : ∀ r ∈ rs, r.InReach size) : m.meetsOffScale lines rs = false := by
  refine List.any_eq_false.mpr fun i _ => ?_
  cases hr : rs[i]? with
  | none => simp
  | some r => simp [(h r (List.mem_of_getElem? hr)).offScale m hlines]

/-- What holds of the records of all versions holds of those that are placed. -/
theorem forall_selected {α : Type} [Scale α] {m : Matching α} {lines : List Text} {versions : VersionSet}
    {target : Text} {selected : PlacedVersion α} (h : m.select lines versions target = .ok selected)
    {P : Record → Prop} (hrecords : ∀ v ∈ versions.versions, ∀ r ∈ v.records, P r) :
    ∀ x ∈ selected.placed.map fun p => ((p.position : Int), p.record), P x.2 := by
  obtain ⟨hv, hfeasible⟩ := Matching.select_feasible h
  refine List.forall_mem_map.mpr fun p hp => hrecords _ hv p.record ?_
  rw [← hfeasible.records]
  exact List.mem_map_of_mem (List.mem_map_of_mem hp)

/-- Applying finds a whole content, or a fault of the file, if there are versions, their records are whole and their
anchors are not too far away. -/
theorem appliedContent_total {tag : Tag} (htag : tag.text.IsWhole) (m : Matching Float) {versions : VersionSet}
    {before : Text} (hbefore : before.IsWhole) (hversions : versions.versions ≠ [])
    (hrecords : ∀ v ∈ versions.versions, ∀ r ∈ v.records, r.IsWhole ∧ r.InReach before.length) :
    (∃ content order, appliedContent tag m versions before = .ok (content, order) ∧ content.IsWhole) ∨
      ∃ fault, appliedContent tag m versions before = .error fault ∧ fault.OfFile := by
  unfold appliedContent
  cases hclear : clearLines tag (Buffer.ofText before).lines with
  | error e =>
    simp only [hclear, Except.mapError, bind, Except.bind]
    exact .inr ⟨_, rfl, .malformed e⟩
  | ok stock =>
    have hlines := isWhole_clearLines hclear (isWhole_lines hbefore)
    obtain ⟨hwithin, hcount⟩ := within_clearLines hclear
    rw [Buffer.lines, List.length_map] at hwithin hcount
    simp only [hclear, Except.mapError, bind, Except.bind, Buffer.withLines_eq hwithin.length hwithin.sources]
    have hscale : (versions.versions.any fun v => m.meetsOffScale stock.lines v.records) = false :=
      List.any_eq_false.mpr fun v hv => Bool.not_eq_true _ ▸ meetsOffScale_of_inReach m
        (hcount.trans (Buffer.length_rowsOf_le before)) fun r hr => (hrecords v hv r hr).2
    generalize Buffer.render _ = target
    cases hselect : m.select stock.lines versions target with
    | error fault =>
      rcases Matching.unplaced_of_select hscale hselect with ⟨hnone, -⟩ | ⟨newest, older, u, -, -, rfl⟩
      · exact absurd (List.reverse_eq_nil_iff.mp hnone) hversions
      · exact .inr ⟨_, rfl, .conflict _⟩
    | ok selected =>
      simp only
      have hwhole := forall_selected hselect fun v hv r hr => (hrecords v hv r hr).1
      cases hpatched : applyVersion tag stock (selected.placed.map fun p => ((p.position : Int), p.record)) with
      | error e => exact .inr ⟨_, rfl, .splice e⟩
      | ok patched =>
        obtain ⟨content, hcontent, hcontentWhole⟩ := contentWith_total (within_applyVersion hwithin hpatched) hbefore
          (over_applyVersion (by decide) (fun _ => htag) (fun x hx => (hwhole x hx).texts) hlines hpatched)
        simp only [hcontent]
        exact .inl ⟨content, _, rfl, hcontentWhole⟩

end

end Regraft

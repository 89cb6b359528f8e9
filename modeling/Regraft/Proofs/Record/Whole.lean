import Regraft.Record.Build
import Regraft.Splice.Render
import Regraft.Proofs.Guard.Recomment
import Regraft.Proofs.Guard.Stock
import Regraft.Proofs.Json.Whole
import Regraft.Proofs.Fallible
/-!
# Whole records

The texts of a file's records are made of characters of its lines (`over_buildRecords`), and the lines that a record is
rendered as are made of characters of its texts, the tag and guard comments (`Record.over_render`). So the records of a
file are whole, as the lines of the file are (`isWhole_buildRecords`), and whole records have a whole artifact.
-/
namespace Regraft

/-! ## Texts of records and segments -/

/-- The texts in a record, apart from its target path. -/
def Record.texts (r : Record) : List Text :=
  [r.comment, r.indent, r.replacementComment, r.replacementIndent] ++ r.preceding ++ r.following ++ r.body ++ r.stock

theorem Record.forall_mem_texts {r : Record} {P : Text → Prop} :
    (∀ t ∈ r.texts, P t) ↔ (P r.comment ∧ P r.indent) ∧ (P r.replacementComment ∧ P r.replacementIndent) ∧
      (∀ t ∈ r.preceding, P t) ∧ (∀ t ∈ r.following, P t) ∧ (∀ t ∈ r.body, P t) ∧ ∀ t ∈ r.stock, P t := by
  simp only [texts, List.forall_mem_append, List.forall_mem_cons, List.not_mem_nil, false_implies, implies_true,
    and_true, and_assoc]

/-- A record of whole texts. -/
structure Record.IsWhole (r : Record) : Prop where
  targetPath : r.targetPath.IsWhole
  texts : ∀ t ∈ r.texts, t.IsWhole

/-- The texts in a segment: those of its record without context. -/
def Segment.texts (s : Segment) : List Text := (s.record [] [] [] 0).texts

theorem Segment.mem_texts_record {s : Segment} {path : Text} {preceding following : List Text} {anchor : Nat} {t : Text}
    (h : t ∈ (s.record path preceding following anchor).texts) : t ∈ s.texts ∨ t ∈ preceding ∨ t ∈ following := by
  cases s <;> simp only [texts, record, Record.texts, List.mem_append, List.append_nil] at h ⊢ <;> tauto

namespace Guard.Over

variable {q : CodePoint → Prop} {g : Guard}

theorem stock (h : g.Over q) : ∀ l ∈ g.lines.map Segment.restore, ∀ c ∈ l, q c := by
  refine List.forall_mem_map.mpr fun l hl c hc => ?_
  exact h.lines l hl c ((restore_sublist l).subset hc)

/-- The segment of a guard is made of characters of the guard. -/
theorem segment (h : g.Over q) (i : Nat) : ∀ t ∈ (g.segment i).texts, ∀ c ∈ t, q c := by
  have hempty : ∀ c ∈ ([] : Text), q c := by simp
  have hnone : ∀ t ∈ ([] : List Text), ∀ c ∈ t, q c := by simp
  unfold Guard.segment
  split
  · exact Record.forall_mem_texts.mpr
      ⟨⟨h.comment, h.indent⟩, ⟨hempty, hempty⟩, hnone, hnone, hnone, h.stock⟩
  · exact Record.forall_mem_texts.mpr
      ⟨⟨h.comment, h.indent⟩, ⟨hempty, hempty⟩, hnone, hnone, h.lines, hnone⟩

theorem replaced {a : Guard} (h : g.Over q) (ha : a.Over q) (i : Nat) : ∀ t ∈ (g.replaced a i).texts, ∀ c ∈ t, q c := by
  have hnone : ∀ t ∈ ([] : List Text), ∀ c ∈ t, q c := by simp
  exact Record.forall_mem_texts.mpr
    ⟨⟨h.comment, h.indent⟩, ⟨ha.comment, ha.indent⟩, hnone, hnone, ha.lines, h.stock⟩

end Guard.Over

theorem Layout.over_pairedFrom {q : CodePoint → Prop} (i : Nat) (layout : Layout) (h : ∀ p ∈ layout, p.GuardOver q) :
    ∀ s ∈ layout.pairedFrom i, ∀ t ∈ s.texts, ∀ c ∈ t, q c := by
  fun_induction pairedFrom i layout with
  | case1 i => simp
  | case2 i t rest ih => exact ih (List.forall_mem_cons.mp h).2
  | case3 i d a rest hpair ih =>
    obtain ⟨hd, ha, hrest⟩ := by simpa only [List.forall_mem_cons] using h
    exact List.forall_mem_cons.mpr ⟨Guard.Over.replaced hd ha i, ih hrest⟩
  | case4 i d a rest hpair ih =>
    obtain ⟨hd, hrest⟩ := List.forall_mem_cons.mp h
    exact List.forall_mem_cons.mpr ⟨Guard.Over.segment hd i, ih hrest⟩
  | case5 i g rest hno ih =>
    obtain ⟨hg, hrest⟩ := List.forall_mem_cons.mp h
    exact List.forall_mem_cons.mpr ⟨Guard.Over.segment hg i, ih hrest⟩

/-! ## Records of a file -/

theorem mem_span {lines : List Text} {start stop : Nat} {t : Text} (h : t ∈ span lines start stop) : t ∈ lines :=
  List.mem_of_mem_take (List.mem_of_mem_drop h)

/-- The texts of a record are those of its segment, and lines of the stock. -/
theorem mem_texts_recordsFrom {stock : List Text} {path : Text} {context : Nat} {r : Record}
    {pairs : List (Segment × Nat)} :
    ∀ {lower : Nat}, r ∈ recordsFrom stock path context lower pairs →
      r.targetPath = path ∧ ∀ t ∈ r.texts, t ∈ stock ∨ ∃ x ∈ pairs, t ∈ x.1.texts := by
  induction pairs with
  | nil => intro lower h; cases h
  | cons x pairs ih =>
    intro lower h
    rcases List.mem_cons.mp h with rfl | h
    · refine ⟨by cases x.1 <;> rfl, fun t ht => ?_⟩
      rcases Segment.mem_texts_record ht with ht | ht | ht
      · exact .inr ⟨x, List.mem_cons_self, ht⟩
      · exact .inl (mem_span ht)
      · exact .inl (mem_span ht)
    · obtain ⟨hpath, htexts⟩ := ih h
      refine ⟨hpath, fun t ht => (htexts t ht).imp_right ?_⟩
      exact fun ⟨y, hy, hmem⟩ => ⟨y, List.mem_cons_of_mem _ hy, hmem⟩

section
variable {tag : Tag} {lines : List Text} {q : CodePoint → Prop}

/-- The stock lines of a stretch are made of characters of its lines. -/
theorem Stretch.over_stock {s : Stretch} (h : s.Sound tag) (hq : ∀ l ∈ s.lines, ∀ c ∈ l, q c) :
    ∀ l ∈ s.piece.stock, ∀ c ∈ l, q c := by
  have hover := s.over h hq
  cases hpiece : s.piece with
  | line t =>
    obtain rfl := s.eq_plain_of_piece hpiece
    exact hq
  | guard g =>
    rw [hpiece] at hover
    rw [Piece.stock, Guard.stock]
    split
    · exact Guard.Over.stock hover
    · simp

theorem Splits.over_stock {split : List Stretch} (h : Splits tag lines split) (hq : ∀ l ∈ lines, ∀ c ∈ l, q c) :
    ∀ l ∈ Layout.stock (split.map Stretch.piece), ∀ c ∈ l, q c := by
  intro l hl
  obtain ⟨p, hp, hl⟩ := List.mem_flatMap.mp hl
  obtain ⟨s, hs, rfl⟩ := List.mem_map.mp hp
  exact s.over_stock (h.sound s hs) (fun l hl => hq l (h.mem_lines hs hl)) l hl

/-- The texts of a file's records are made of characters of its lines. -/
theorem over_buildRecords {segments : List Segment} {path : Text} (hparse : Segment.parse tag lines = .ok segments)
    (hq : ∀ l ∈ lines, ∀ c ∈ l, q c) {context : Nat} {r : Record} (hr : r ∈ buildRecords lines segments path context) :
    r.targetPath = path ∧ ∀ t ∈ r.texts, ∀ c ∈ t, q c := by
  obtain ⟨split, hsplit⟩ := exists_splits_of_parse hparse
  obtain rfl := Except.ok.inj (hsplit.parse.symm.trans hparse)
  obtain ⟨hpath, htexts⟩ := mem_texts_recordsFrom hr
  refine ⟨hpath, fun t ht => ?_⟩
  rcases htexts t ht with ht | ⟨x, hx, ht⟩
  · rw [stockLines_of_reads hsplit.reads (Layout.pairReplacements_segmentsFrom 0 _)] at ht
    exact hsplit.over_stock hq t ht
  · refine Layout.over_pairedFrom 0 _ (List.forall_mem_map.mpr fun s hs => ?_) x.1 (List.of_mem_zip hx).1 t ht
    exact s.over (hsplit.sound s hs) fun l hl => hq l (hsplit.mem_lines hs hl)

/-- The records of a file are whole, if its lines are. -/
theorem isWhole_buildRecords {segments : List Segment} {path : Text} (hparse : Segment.parse tag lines = .ok segments)
    (hlines : ∀ l ∈ lines, l.IsWhole) (hpath : path.IsWhole) (context : Nat) :
    ∀ r ∈ buildRecords lines segments path context, r.IsWhole := by
  intro r hr
  obtain ⟨rfl, htexts⟩ := over_buildRecords hparse hlines hr
  exact ⟨hpath, htexts⟩

end

/-! ## Artifacts -/

theorem Record.IsWhole.allTexts {r : Record} (h : r.IsWhole) :
    Json.AllTexts (fun t => (Json.quoteRaw t).IsWhole) r.toJson := by
  obtain ⟨⟨hcomment, hindent⟩, ⟨hcomment', hindent'⟩, hpreceding, hfollowing, hbody, hstock⟩ :=
    forall_mem_texts.mp fun t ht => Json.isWhole_quoteRaw (h.texts t ht)
  have hword : ∀ s : String, (Json.quoteRaw (Text.ofString s)).IsWhole :=
    fun s => Json.isWhole_quoteRaw (Text.isWhole_ofString s)
  have hkind : (Json.quoteRaw r.kind.word).IsWhole := by
    cases r.kind <;> exact hword _
  have hstyle : ∀ style : GuardStyle, (Json.quoteRaw style.word).IsWhole := by
    intro style
    cases style <;> exact hword _
  have hreplacement : Json.AllTexts (fun t => (Json.quoteRaw t).IsWhole)
      (.optional (fun s => .text (GuardStyle.word s)) r.replacementStyle) := by
    cases r.replacementStyle with
    | none => exact .null
    | some style => exact .text _ (hstyle style)
  have hblanks : Json.AllTexts (fun t => (Json.quoteRaw t).IsWhole) (.array (r.blankStock.map .int)) :=
    .array _ (List.forall_mem_map.mpr fun n _ => .int n)
  refine Json.allTexts_record hword ?_
  simp only [List.forall_mem_cons, List.not_mem_nil, false_implies, implies_true, and_true]
  exact ⟨.text _ (Json.isWhole_quoteRaw h.targetPath), .text _ hkind, .text _ (hstyle _), .text _ hcomment,
    .text _ hindent, Json.allTexts_texts hpreceding, Json.allTexts_texts hfollowing, Json.allTexts_texts hbody,
    Json.allTexts_texts hstock, hblanks, hreplacement, .text _ hcomment', .text _ hindent', .int _, .int _⟩

/-- Whole records have a whole artifact. -/
theorem Version.isWhole_artifact {v : Version} (h : ∀ r ∈ v.records, r.IsWhole) : v.artifact.IsWhole := by
  have hall : Json.AllTexts (fun t => (Json.quoteRaw t).IsWhole) v.toJson := by
    refine Json.allTexts_record (fun s => Json.isWhole_quoteRaw (Text.isWhole_ofString s)) ?_
    simp only [List.forall_mem_cons, List.not_mem_nil, false_implies, implies_true, and_true]
    exact ⟨.int _, .text _ (Json.isWhole_quoteRaw v.created.isWhole_showZulu),
      .array _ (List.forall_mem_map.mpr fun r hr => (h r hr).allTexts)⟩
  simp [artifact, hall.isWhole_indented]

/-! ## Guarded lines -/

section
variable {tag : Tag} {q : CodePoint → Prop}

/-- The comments of a guard are made of the tag, of texts of its record and of a few more characters. -/
theorem over_guardLines {style : GuardStyle} {indent comment : Text} {lines out : List Text} {deletion : Bool}
    (hmarks : ∀ c ∈ ("// -: Begin End" : Text), q c) (htag : ∀ c ∈ tag.text, q c) (hindent : ∀ c ∈ indent, q c)
    (hcomment : ∀ c ∈ comment, q c) (hlines : ∀ l ∈ lines, ∀ c ∈ l, q c)
    (h : guardLines tag style indent comment lines deletion = .ok out) : ∀ l ∈ out, ∀ c ∈ l, q c := by
  have hmark : ∀ t : Text, t ⊆ ("// -: Begin End" : Text) → ∀ c ∈ t, q c := fun t ht c hc => hmarks c (ht hc)
  have hnote : ∀ c ∈ tag.formatNote comment deletion, q c := by
    simp only [Tag.formatNote, List.forall_mem_append]
    refine ⟨⟨⟨hmark _ (by decide), htag⟩, hmark _ ?_⟩, hcomment⟩
    cases deletion <;> decide
  have hbegin : ∀ c ∈ tag.formatBegin indent comment deletion, q c := by
    simp only [Tag.formatBegin, List.forall_mem_append]
    exact ⟨⟨hindent, hnote⟩, hmark _ (by decide)⟩
  have hend : ∀ c ∈ tag.formatEnd indent, q c := by
    simp only [Tag.formatEnd, List.forall_mem_append]
    exact ⟨⟨⟨hindent, hmark _ (by decide)⟩, htag⟩, hmark _ (by decide)⟩
  unfold guardLines at h
  split at h
  · obtain rfl := Except.ok.inj h
    simp only [List.cons_append, List.forall_mem_cons, List.forall_mem_append, List.not_mem_nil, false_implies,
      implies_true, and_true]
    exact ⟨hbegin, hlines, hend⟩
  · obtain rfl := Except.ok.inj h
    simp only [List.forall_mem_singleton, Tag.formatTrailing, List.forall_mem_append]
    exact ⟨⟨hlines _ List.mem_cons_self, hmarks _ (by decide)⟩, hnote⟩
  · obtain rfl := Except.ok.inj h
    refine List.forall_mem_cons.mpr ⟨?_, hlines⟩
    simp only [Tag.formatMarker, List.forall_mem_append]
    exact ⟨hindent, hnote⟩
  · cases h

/-- A deletion is rendered as its guarded stock, with the guarded lines that replace it behind it. -/
theorem Record.exists_of_render {r : Record} {lines : List Text} (hkind : r.kind = .deletion)
    (h : r.render tag = .ok lines) :
    ∃ deleted inserted, guardLines tag r.style r.indent r.comment r.commentedStock true = .ok deleted ∧
      lines = deleted ++ inserted ∧ (inserted = [] ∨ ∃ style,
        guardLines tag style r.replacementIndent r.replacementComment r.body false = .ok inserted) := by
  simp only [render, hkind] at h
  obtain ⟨deleted, hdeleted, hrest⟩ := bind_eq_ok.mp h
  cases hstyle : r.replacementStyle with
  | none =>
    rw [hstyle] at hrest
    obtain rfl := Except.ok.inj hrest
    exact ⟨deleted, [], hdeleted, (List.append_nil _).symm, .inl rfl⟩
  | some style =>
    rw [hstyle] at hrest
    obtain ⟨inserted, hinserted, hlines⟩ := bind_eq_ok.mp hrest
    obtain rfl := Except.ok.inj hlines
    exact ⟨deleted, inserted, hdeleted, rfl, .inr ⟨style, hinserted⟩⟩

/-- A record is rendered in characters of its texts and of guard comments. -/
theorem Record.over_render {r : Record} {lines : List Text} (hmarks : ∀ c ∈ ("// -: Begin End" : Text), q c)
    (htag : ∀ c ∈ tag.text, q c) (hr : ∀ t ∈ r.texts, ∀ c ∈ t, q c) (h : r.render tag = .ok lines) :
    ∀ l ∈ lines, ∀ c ∈ l, q c := by
  obtain ⟨⟨hcomment, hindent⟩, ⟨hcomment', hindent'⟩, -, -, hbody, hstock⟩ := forall_mem_texts.mp hr
  have hcommented : ∀ l ∈ r.commentedStock, ∀ c ∈ l, q c := by
    refine List.forall_mem_map.mpr fun x hx => ?_
    have hline := hstock _ (List.fst_mem_of_mem_zipIdx hx)
    simp only
    split
    · exact hline
    · exact over_commentOut (hmarks _ (by decide)) (hmarks _ (by decide)) hline
  cases hkind : r.kind with
  | addition =>
    simp only [render, hkind] at h
    exact over_guardLines hmarks htag hindent hcomment hbody h
  | deletion =>
    obtain ⟨deleted, inserted, hdeleted, rfl, hinserted⟩ := exists_of_render hkind h
    refine List.forall_mem_append.mpr ⟨over_guardLines hmarks htag hindent hcomment hcommented hdeleted, ?_⟩
    rcases hinserted with rfl | ⟨style, hinserted⟩
    · simp
    · exact over_guardLines hmarks htag hindent' hcomment' hbody hinserted

end

end Regraft

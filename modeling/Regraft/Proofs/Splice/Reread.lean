import Regraft.Proofs.Change
import Regraft.Proofs.Files.Effect
import Regraft.Proofs.Guard.Stray
import Regraft.Proofs.Record.Guards
import Regraft.Proofs.Splice.Planned
import Regraft.Proofs.Text.Reread
/-!
# Reading a change again

A change is planned as lines with their sources, written with the line ends of these, and split into lines again when
the file is next read. Since a content is written row by row, it is read row by row (`Rereads`): the planned lines come
back if they are those of the file, or if every written row is legible, and not otherwise. A row is illegible for one of
two reasons. The text ended without a line end, and so its new last row goes without one, but is blank; or a line that
ends in a carriage return, such as the last line of the text or a line of a record, is given a line feed.

* `Recorded.over`: a recorded change is made of characters of its file, and so is the tag;
* `exists_rereads`: what a content with planned lines is read into;
* `Change.content_rereads`: for every change that clearing or applying plans;
* `Change.content_misread`: a blank line that is lost, and a line that another one stands for after an apply.
-/
namespace Regraft

section
variable {tag : Tag}

/-! ## Planned lines -/

/-- Cleared lines hold no line feeds, as the lines of the file. -/
theorem oneLine_clearLines {lines : List Text} {cleared : Sourced Nat} (h : clearLines tag lines = .ok cleared)
    (hl : ∀ l ∈ lines, OneLine l) : ∀ l ∈ cleared.lines, OneLine l := by
  obtain ⟨split, hsplit, rfl⟩ := exists_splits_of_clearLines h
  exact hsplit.over_stock hl

theorem Recorded.mono {q q' : CodePoint → Prop} {r : Record} (h : Recorded q tag r) (hq : ∀ c, q c → q' c) :
    Recorded q' tag r := by
  obtain ⟨lines, segments, path, context, order, hlines, hrecorded⟩ := h
  exact ⟨lines, segments, path, context, order, fun l hl c hc => hq c (hlines l hl c hc), hrecorded⟩

/-- A change is recorded of lines in which the tag stands. -/
theorem Recorded.over {q : CodePoint → Prop} {r : Record} (h : Recorded q tag r) :
    (∀ c ∈ tag.text, q c) ∧ ∀ t ∈ r.texts, ∀ c ∈ t, q c := by
  obtain ⟨lines, segments, path, context, order, hq, hparse, r₀, hr₀, rfl⟩ := h
  refine ⟨?_, (over_buildRecords hparse hq hr₀).2⟩
  obtain ⟨line, hline, hmentions⟩ : ∃ line ∈ lines, tag.mentions line = true := by
    by_contra hno
    have hnone : ∀ l ∈ lines, tag.mentions l = false := fun l hl =>
      Bool.eq_false_iff.mpr fun hl' => hno ⟨l, hl, hl'⟩
    obtain rfl := Except.ok.inj ((parse_of_not_mentions hnone).symm.trans hparse)
    cases hr₀
  exact fun c hc => hq line hline c ((Tag.text_sublist hmentions).subset hc)

namespace Matching

variable {α : Type} [Scale α] {m : Matching α} {versions : VersionSet} {before : Text} {planned : Sourced Nat}
  {order : Int}

/-- What is planned are the stock lines with the records of the selected version. -/
theorem planned?_eq_some (h : m.planned? tag versions before = some (planned, order)) :
    ∃ stock selected, clearLines tag (Buffer.ofText before).lines = .ok stock ∧
      m.select stock.lines versions [] = .ok selected ∧ order = selected.version.order ∧
      applyVersion tag stock (selected.placed.map fun p => ((p.position : Int), p.record)) = .ok planned := by
  obtain ⟨stock, hstock, hrest⟩ := Option.bind_eq_some_iff.mp h
  obtain ⟨selected, hselected, hrest⟩ := Option.bind_eq_some_iff.mp hrest
  obtain ⟨patched, hpatched, hresult⟩ := Option.bind_eq_some_iff.mp hrest
  obtain ⟨rfl, rfl⟩ := Prod.mk.inj (Option.some.inj hresult)
  exact ⟨stock, selected, eq_ok_of_toOption hstock, eq_ok_of_toOption hselected, rfl, eq_ok_of_toOption hpatched⟩

/-- Planned lines have sources among the lines of the content. -/
theorem within_planned? (h : m.planned? tag versions before = some (planned, order)) :
    planned.Within (Buffer.ofText before).rows.length := by
  obtain ⟨stock, selected, hclear, -, -, happly⟩ := planned?_eq_some h
  have hwithin := (within_clearLines hclear).1
  rw [Buffer.lines, List.length_map] at hwithin
  exact within_applyVersion hwithin happly

/-- Lines that are planned from recorded changes hold no line feeds. -/
theorem oneLine_planned? (hr : ∀ v ∈ versions.versions, ∀ r ∈ v.records, Recorded (fun c => c ≠ char '\n') tag r)
    (h : m.planned? tag versions before = some (planned, order)) : ∀ l ∈ planned.lines, OneLine l := by
  obtain ⟨stock, selected, hclear, hselect, -, happly⟩ := planned?_eq_some h
  have hrecords := forall_selected hselect hr
  refine over_applyVersion (by decide) (fun hplaced => ?_) (fun x hx => (hrecords x hx).over.2)
    (oneLine_clearLines hclear (Buffer.oneLine_lines before)) happly
  obtain ⟨x, hx⟩ := List.exists_mem_of_ne_nil _ hplaced
  exact (hrecords x hx).over.1

end Matching

/-! ## Contents -/

/-- What a content with planned lines is read into. It is the one before if the lines are; otherwise, each row that was
written is read into what its text comes to. The planned lines come back exactly in the first case and where every row
is legible. -/
def Rereads (before : Text) (planned : Sourced Nat) (content : Text) : Prop :=
  ∃ written, (Buffer.ofText before).withLines planned.lines planned.sources = .ok written ∧
    (planned.lines = (Buffer.ofText before).lines → content = before) ∧
    (planned.lines ≠ (Buffer.ofText before).lines →
      (Buffer.ofText content).rows = written.rows.flatMap Row.reread) ∧
    ((Buffer.ofText content).lines = planned.lines ↔
      planned.lines = (Buffer.ofText before).lines ∨ ∀ row ∈ written.rows, row.IsLegible)

variable {before : Text} {planned : Sourced Nat}

/-- A content with planned lines is found, and read row by row. -/
theorem exists_rereads (hplanned : planned.Within (Buffer.ofText before).rows.length)
    (hl : ∀ l ∈ planned.lines, OneLine l) :
    ∃ content, contentWith before (Buffer.ofText before) planned = .ok content ∧ Rereads before planned content := by
  let b := Buffer.ofText before
  have hwritten := Buffer.withLines_eq hplanned.length hplanned.sources
  by_cases hsame : planned.lines = b.lines
  · exact ⟨before, contentWith_same hsame, _, hwritten, fun _ => rfl, fun h => absurd hsame h,
      iff_of_true hsame.symm (.inl hsame)⟩
  · let rows := b.sourcedRows planned.lines planned.sources
    have hopen : OpenAtEnd rows := Buffer.openAtEnd_sourcedRows _ _
    have hlines : rows.map Row.line = planned.lines := Buffer.map_line_sourcedRows hplanned.length
    have hrows : ∀ row ∈ rows, OneLine row.line := fun row hrow => hl _ (hlines ▸ List.mem_map_of_mem hrow)
    have hread : (Buffer.ofText (rows.flatMap Row.render)).rows = rows.flatMap Row.reread :=
      Buffer.rowsOf_flatMap_render hopen hrows
    refine ⟨_, contentWith_other hsame hplanned.length hplanned.sources, _, hwritten, fun h => absurd h hsame,
      fun _ => hread, ?_⟩
    calc (Buffer.ofText (rows.flatMap Row.render)).lines = planned.lines
        ↔ (rows.flatMap Row.reread).map Row.line = rows.map Row.line := by rw [Buffer.lines, hread, hlines]
      _ ↔ ∀ row ∈ rows, row.IsLegible := Buffer.lines_flatMap_reread hopen
      _ ↔ planned.lines = b.lines ∨ ∀ row ∈ rows, row.IsLegible := by simp [hsame]

/-- A cleared content is read row by row. -/
theorem clearedContent_rereads {cleared : Sourced Nat} (h : clearLines tag (Buffer.ofText before).lines = .ok cleared) :
    ∃ content, clearedContent tag before = .ok content ∧ Rereads before cleared content := by
  have hwithin := (within_clearLines h).1
  rw [Buffer.lines, List.length_map] at hwithin
  obtain ⟨content, hcontent, hreads⟩ :=
    exists_rereads hwithin (oneLine_clearLines h (Buffer.oneLine_lines before))
  refine ⟨content, ?_, hreads⟩
  simp only [clearedContent, h, Except.mapError, bind, Except.bind, hcontent]

/-- A content with recorded changes is read row by row. -/
theorem Matching.applied?_rereads {α : Type} [Scale α] {m : Matching α} {versions : VersionSet} {order : Int}
    (hr : ∀ v ∈ versions.versions, ∀ r ∈ v.records, Recorded (fun c => c ≠ char '\n') tag r)
    (h : m.planned? tag versions before = some (planned, order)) :
    ∃ content, m.applied? tag versions before = some (content, order) ∧ Rereads before planned content := by
  obtain ⟨content, hcontent, hreads⟩ := exists_rereads (within_planned? h) (oneLine_planned? hr h)
  refine ⟨content, ?_, hreads⟩
  simp only [applied?, h, Option.bind_eq_bind, Option.bind_some, hcontent, Except.toOption]
  rfl

end

/-! ## Changes -/

namespace Change

/-- What clearing or applying a file is planned to leave in it is read again row by row. -/
theorem content_rereads (tag : Tag) :
    (∀ (s : Sandbox) (p : Path) (w : World) (c : Change), (ofClear s tag p).value w = .ok c →
      ∃ cleared, clearLines tag (Buffer.ofText c.before).lines = .ok cleared ∧
        Rereads c.before cleared c.content) ∧
    ∀ versions : VersionSet,
      (∀ v ∈ versions.versions, ∀ r ∈ v.records, Recorded (fun c => c ≠ char '\n') tag r) →
      (∀ (s : Sandbox) (m : Matching Float) (p : Path) (w : World) (c : Change),
        (ofApply s tag m p versions).value w = .ok c →
          ∃ planned order, m.planned? tag versions c.before = some (planned, order) ∧ c.version = some order ∧
            Rereads c.before planned c.content) ∧
      ∀ {α : Type} [Scale α] (m : Matching α) (before : Text) (planned : Sourced Nat) (order : Int),
        m.planned? tag versions before = some (planned, order) →
          ∃ content, m.applied? tag versions before = some (content, order) ∧ Rereads before planned content := by
  refine ⟨fun s p w c h => ?_, fun versions hr => ⟨fun s m p w c h => ?_, fun m before planned order =>
    m.applied?_rereads hr⟩⟩
  · obtain ⟨before, -, hrest⟩ := (s.looks_readText p).bind_eq_ok h
    obtain ⟨content, hvalue, hchange⟩ := (Attempt.looks_ofExcept _ _).bind_eq_ok hrest
    obtain rfl := Except.ok.inj hchange
    have hcontent : clearedContent tag before = .ok content := Attempt.value_ofExcept_eq_ok hvalue
    obtain ⟨cleared, hclear, -⟩ := bind_eq_ok.mp hcontent
    have hcleared := mapError_eq_ok.mp hclear
    obtain ⟨content', hcontent', hreads⟩ := clearedContent_rereads hcleared
    obtain rfl := Except.ok.inj (hcontent.symm.trans hcontent')
    exact ⟨cleared, hcleared, hreads⟩
  · obtain ⟨before, -, hrest⟩ := (s.looks_readText p).bind_eq_ok h
    obtain ⟨⟨content, order⟩, hvalue, hchange⟩ := (Attempt.looks_ofExcept _ _).bind_eq_ok hrest
    obtain rfl := Except.ok.inj hchange
    have hcontent : appliedContent tag m versions before = .ok (content, order) :=
      Attempt.value_ofExcept_eq_ok hvalue
    have happlied : m.applied? tag versions before = some (content, order) := by
      rw [← toOption_appliedContent, hcontent]
      rfl
    obtain ⟨⟨planned, order'⟩, hplanned, hrest⟩ := Option.bind_eq_some_iff.mp happlied
    obtain ⟨content', hcontent', hreads⟩ := m.applied?_rereads hr hplanned
    obtain ⟨rfl, rfl⟩ := Prod.mk.inj (Option.some.inj (happlied.symm.trans hcontent'))
    exact ⟨planned, order, hplanned, rfl, hreads⟩

/-- The world of the sample with another text in the file. -/
def sampleWorldWith (chars : List Char) : World := { sampleWorld with tree := ⟨[(["a.c"], .file (.text chars))]⟩ }

/-- An addition, recorded behind a line of another file. -/
def sampleAddition : VersionSet :=
  let lines : List Text := ["int b;", "// Mod: Begin", "int x;", "// Mod: End"]
  ⟨"a.c", [⟨1, sampleWorld.clock,
    buildRecords lines (((Segment.parse sampleTag lines).toOption).getD []) "a.c" 0⟩]⟩

theorem recorded_sampleAddition :
    ∀ v ∈ sampleAddition.versions, ∀ r ∈ v.records, Recorded (fun c => c ≠ char '\n') sampleTag r := by
  intro v hv r hr
  obtain rfl := List.mem_singleton.mp hv
  exact ⟨_, _, "a.c", 0, r.order, by decide, rfl, r, hr, rfl⟩

theorem content_rereads_sample :
    (∃ c, (ofClear (.live []) sampleTag ⟨.relative, ["a.c"]⟩).value (sampleWorldWith samplePlugin) = .ok c ∧
      c.content = Text.ofChars sampleBefore ∧
      ∃ cleared, clearLines sampleTag (Buffer.ofText c.before).lines = .ok cleared ∧
        Rereads c.before cleared c.content) ∧
    (∃ c, (ofApply (.live []) sampleTag ⟨0.5, none, exactSimilarity⟩ ⟨.relative, ["a.c"]⟩ sampleStored).value
        sampleWorld = .ok c ∧
      ∃ planned order, Matching.planned? ⟨0.5, none, exactSimilarity⟩ sampleTag sampleStored c.before =
          some (planned, order) ∧ c.version = some order ∧ Rereads c.before planned c.content) ∧
    ∃ planned, (⟨1 / 2, none, exactSimilarity⟩ : Matching ℚ).planned? sampleTag sampleAddition "int a;" =
        some (planned, 1) ∧
      ∃ content, (⟨1 / 2, none, exactSimilarity⟩ : Matching ℚ).applied? sampleTag sampleAddition "int a;" =
        some (content, 1) ∧ Rereads "int a;" planned content := by
  obtain ⟨hclear, happly⟩ := content_rereads sampleTag
  refine ⟨?_, ?_, ?_⟩
  · have hvalue : (ofClear (.live []) sampleTag ⟨.relative, ["a.c"]⟩).value (sampleWorldWith samplePlugin) =
        .ok ⟨⟨.relative, ["a.c"]⟩, Text.ofChars samplePlugin, Text.ofChars sampleBefore, none⟩ := by rfl
    exact ⟨_, hvalue, rfl, hclear _ _ _ _ hvalue⟩
  · have hrecorded : ∀ v ∈ sampleStored.versions, ∀ r ∈ v.records, Recorded InLine sampleTag r := fun v hv r hr =>
      (recorded_sampleStored v hv r hr).recorded
    obtain ⟨selected, hselect⟩ := exists_select_sampleStored
    obtain ⟨after, hpatched, -⟩ := exists_patched (by unfold Tag.IsIdentifier; decide) (by decide)
      isHalf_of_mem_ofChars (by decide) hrecorded hselect
    have hread : ((Sandbox.live []).readText ⟨.relative, ["a.c"]⟩).outcome sampleWorld =
        (.ok (Text.ofChars sampleBefore), sampleWorld) := by rfl
    have hchange : (ofApply (.live []) sampleTag ⟨0.5, none, exactSimilarity⟩ ⟨.relative, ["a.c"]⟩
        sampleStored).outcome sampleWorld =
          (.ok ⟨⟨.relative, ["a.c"]⟩, Text.ofChars sampleBefore, after, some selected.version.order⟩, sampleWorld) := by
      refine (Attempt.outcome_bind hread _).trans ?_
      exact Attempt.outcome_bind (Attempt.outcome_ofExcept (.content ⟨.relative, ["a.c"]⟩) hpatched.apply _) _
    have hvalue := congrArg Prod.fst hchange
    have happly' := (happly sampleStored fun v hv r hr => (hrecorded v hv r hr).mono fun c hc => hc.1).1
    exact ⟨_, hvalue, happly' _ _ _ _ _ hvalue⟩
  · have hplanned : ((⟨1 / 2, none, exactSimilarity⟩ : Matching ℚ).planned? sampleTag sampleAddition "int a;").map
        Prod.snd = some 1 := by with_unfolding_all decide
    obtain ⟨⟨planned, order⟩, hplanned, rfl⟩ := Option.map_eq_some_iff.mp hplanned
    exact ⟨planned, hplanned, (happly sampleAddition recorded_sampleAddition).2 _ _ _ _ hplanned⟩

/-- Clearing a text without a line end at its end can lose a blank line. An addition behind a line that ends in a
carriage return takes that away from the line: when the addition is cleared again, the line is another one. -/
theorem content_misread :
    (∃ c, (ofClear (.live []) sampleTag ⟨.relative, ["a.c"]⟩).value
          (sampleWorldWith "int a;\n\n// Mod: Begin\nint x;\n// Mod: End".toList) = .ok c ∧
      clearLines sampleTag (Buffer.ofText c.before).lines = .ok ⟨["int a;", ""], [some 0, some 1]⟩ ∧
      (Buffer.ofText c.content).lines = ["int a;"]) ∧
    (∀ v ∈ sampleAddition.versions, ∀ r ∈ v.records, Recorded (fun c => c ≠ char '\n') sampleTag r) ∧
    (⟨1 / 2, none, exactSimilarity⟩ : Matching ℚ).planned? sampleTag sampleAddition "int a;\r" =
      some (⟨["int a;\r", "// Mod: Begin", "int x;", "// Mod: End"], [some 0, none, none, none]⟩, 1) ∧
    ∃ content, (⟨1 / 2, none, exactSimilarity⟩ : Matching ℚ).applied? sampleTag sampleAddition "int a;\r" =
        some (content, 1) ∧
      (Buffer.ofText content).lines = ["int a;", "// Mod: Begin", "int x;", "// Mod: End"] ∧
      clearedContent sampleTag content = .ok "int a;" := by
  refine ⟨⟨_, rfl, by decide, by decide⟩, recorded_sampleAddition, by with_unfolding_all decide,
    "int a;\r\n// Mod: Begin\nint x;\n// Mod: End", by with_unfolding_all decide, by decide, by rfl⟩

end Change

end Regraft

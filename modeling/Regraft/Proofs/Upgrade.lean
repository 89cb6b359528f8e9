import Regraft.Proofs.Change
import Regraft.Proofs.Run.Effect
import Regraft.Proofs.Splice.Planned
import Regraft.Proofs.Store.Regenerate
import Regraft.Proofs.Text.Reread
/-!
# Upgrading in place

A version can be applied to a file that holds an older one, or to what clearing leaves of that file. Both ways start
from the same stock lines, if the cleared content is split into them again (`Settles`), so the same version is selected
and the same lines are planned (`planned?_settled`). The bytes may differ, for line ends are chosen on different texts:
they are the same if these agree on the line end that prevails and on the last line (`Steady`), and if the file is not
left alone for having the planned lines already, with line ends of its own (`applied?_settled`).

* `rows_settled`: the cleared content is read into the rows that it was made of;
* `Change.apply_settled`: what both ways leave of a file.
-/
namespace Regraft

/-! ## Rows of a text -/

namespace Buffer

/-- Line ends are told apart by what follows the line. -/
theorem ending_eq_of_render {e e' : Newline} {rest rest' : Text} (h : e.text ++ rest = e'.text ++ rest') :
    e = e' ∧ rest = rest' := by
  cases e <;> cases e' <;> simp_all [Newline.text]

/-- Rows with the same lines and the same text are the same. -/
theorem rows_eq_of_render {rows : List Row} (hopen : OpenAtEnd rows) :
    ∀ {rows' : List Row}, OpenAtEnd rows' → rows.map Row.line = rows'.map Row.line →
      rows.flatMap Row.render = rows'.flatMap Row.render → rows = rows' := by
  induction rows with
  | nil =>
    intro rows' _ hlines _
    exact (List.map_eq_nil_iff.mp hlines.symm).symm
  | cons row rows ih =>
    intro rows' hopen' hlines hrender
    cases rows' with
    | nil => cases hlines
    | cons row' rows' =>
      obtain ⟨line, ending⟩ := row
      obtain ⟨line', ending'⟩ := row'
      obtain ⟨rfl, hrest⟩ : line = line' ∧ rows.map Row.line = rows'.map Row.line := by simpa using hlines
      simp only [List.flatMap_cons, Row.render, List.append_assoc, List.append_cancel_left_eq] at hrender
      have hlength : rows.length = rows'.length := by simpa using congrArg List.length hrest
      cases ending with
      | none =>
        obtain rfl := hopen.1 rfl
        obtain rfl : rows' = [] := List.length_eq_zero_iff.mp hlength.symm
        cases ending' with
        | none => rfl
        | some e => cases e <;> simp [Newline.text] at hrender
      | some e =>
        cases ending' with
        | none =>
          obtain rfl := hopen'.1 rfl
          obtain rfl : rows = [] := List.length_eq_zero_iff.mp hlength
          cases e <;> simp [Newline.text] at hrender
        | some e' =>
          obtain ⟨rfl, htexts⟩ := ending_eq_of_render hrender
          rw [ih hopen.2 hopen'.2 hrest htexts]

/-- Every line that ends with a line end ends as most of them do. -/
def IsEven (b : Buffer) : Prop := ∀ row ∈ b.rows, ∀ e ∈ row.ending, e = b.newline

variable {b : Buffer} {sources : List (Option Nat)}

theorem IsEven.endingAt (h : b.IsEven) (source : Option Nat) : b.endingAt source = b.newline := by
  cases source with
  | none => rfl
  | some i =>
    unfold Buffer.endingAt endingOf?
    cases hrow : b.rows[i]? with
    | none => simp [hrow]
    | some row =>
      cases hending : row.ending with
      | none => simp [hrow, hending]
      | some e => simpa [hrow, hending] using h row (List.mem_of_getElem? hrow) e hending

theorem closeLast_even {rows : List Row} {newline : Newline} (hopen : OpenAtEnd rows)
    (heven : ∀ row ∈ rows, ∀ e ∈ row.ending, e = newline) :
    closeLast (endsWithNewline ⟨rows, newline⟩) (rows.map fun row => ⟨row.line, some newline⟩) = rows := by
  induction rows with
  | nil => rfl
  | cons row rows ih =>
    obtain ⟨hrow, hrows⟩ := List.forall_mem_cons.mp heven
    obtain ⟨line, ending⟩ := row
    cases rows with
    | nil =>
      cases ending with
      | none => rfl
      | some e =>
        obtain rfl : e = newline := hrow e rfl
        rfl
    | cons next rows =>
      cases ending with
      | none => cases hopen.1 rfl
      | some e =>
        obtain rfl : e = newline := hrow e rfl
        have hlast : endsWithNewline ⟨⟨line, some e⟩ :: next :: rows, e⟩ = endsWithNewline ⟨next :: rows, e⟩ := by
          simp [endsWithNewline]
        have hrest := ih hopen.2 hrows
        rw [List.map_cons] at hrest
        rw [hlast, List.map_cons, List.map_cons, closeLast, hrest]
        simp

/-- Where all line ends are the same, a line is given the end that it has, wherever it comes from. -/
theorem IsEven.sourcedRows_lines (h : b.IsEven) (hopen : OpenAtEnd b.rows) (hlen : sources.length = b.lines.length) :
    b.sourcedRows b.lines sources = b.rows := by
  have hrows : b.lines.zipWith (fun line source => (⟨line, some (b.endingAt source)⟩ : Row)) sources =
      b.rows.map fun row => ⟨row.line, some b.newline⟩ := by
    refine List.ext_getElem (by simp [hlen, lines]) fun i _ _ => ?_
    simp [h.endingAt, lines]
  rw [sourcedRows, hrows]
  exact closeLast_even hopen h

end Buffer

/-! ## Cleared contents -/

/-- A content that is cleared to another one, which is split into the stock lines again. These hold no guards. -/
structure Settles (tag : Tag) (before cleared : Text) (stock : Sourced Nat) : Prop where
  clears : clearLines tag (Buffer.ofText before).lines = .ok stock
  content : contentWith before (Buffer.ofText before) stock = .ok cleared
  lines : (Buffer.ofText cleared).lines = stock.lines
  plain : Segment.parse tag stock.lines = .ok []

/-- Line ends that clearing does not shift: the same line end prevails in the cleared content, and if the content does
not end with one, then the stock does not lose one of another kind behind its last line. -/
structure Steady (before cleared : Text) (stock : Sourced Nat) : Prop where
  newline : (Buffer.ofText cleared).newline = (Buffer.ofText before).newline
  last : (Buffer.ofText before).endsWithNewline = true ∨
    ∃ source ∈ stock.sources.getLast?, (Buffer.ofText before).endingAt source = (Buffer.ofText before).newline

/-- The lines that cleared lines come from. -/
def retrace (stock : Sourced Nat) (source : Option Nat) : Option Nat :=
  source.bind fun i => (stock.sources[i]?).join

namespace Settles

variable {tag : Tag} {before cleared : Text} {stock planned : Sourced Nat}

theorem within (h : Settles tag before cleared stock) : stock.Within (Buffer.ofText before).rows.length := by
  have hwithin := (within_clearLines h.clears).1
  rwa [Buffer.lines, List.length_map] at hwithin

theorem clearedContent (h : Settles tag before cleared stock) : clearedContent tag before = .ok cleared := by
  simp only [Regraft.clearedContent, h.clears, Except.mapError, bind, Except.bind, h.content]

/-- The stock lines of the cleared content are its lines. -/
theorem clearLines_cleared (h : Settles tag before cleared stock) :
    clearLines tag (Buffer.ofText cleared).lines = .ok ⟨stock.lines, (List.range stock.lines.length).map some⟩ := by
  rw [h.lines]
  exact clearLines_of_parse_nil h.plain

/-- Named for the lines that they come from, these are the stock lines of the content. -/
theorem mapSources_retrace (h : Settles tag before cleared stock) :
    Sourced.mapSources (retrace stock) ⟨stock.lines, (List.range stock.lines.length).map some⟩ = stock := by
  obtain ⟨lines, sources⟩ := stock
  have hlen : sources.length = lines.length := h.within.length
  have hsources : ((List.range lines.length).map some).map (retrace ⟨lines, sources⟩) = sources := by
    refine List.ext_getElem (by simp [hlen]) fun i _ hi => ?_
    simp [retrace, List.getElem?_eq_getElem hi]
  rw [Sourced.mapSources, hsources]

/-- A content without segments is left as it is. -/
theorem eq_of_lines (h : Settles tag before cleared stock) (hsame : stock.lines = (Buffer.ofText before).lines) :
    cleared = before := by
  have hcontent := h.content
  rw [contentWith_same hsame] at hcontent
  exact (Except.ok.inj hcontent).symm

/-- The cleared content is read into the rows that it was made of. -/
theorem rows (h : Settles tag before cleared stock) (hother : stock.lines ≠ (Buffer.ofText before).lines) :
    (Buffer.ofText cleared).rows = (Buffer.ofText before).sourcedRows stock.lines stock.sources := by
  have hcontent := h.content
  rw [contentWith_other hother h.within.length h.within.sources] at hcontent
  refine Buffer.rows_eq_of_render (Buffer.openAtEnd_rowsOf cleared) (Buffer.openAtEnd_sourcedRows _ _) ?_ ?_
  · rw [Buffer.map_line_sourcedRows h.within.length]
    exact h.lines
  · exact (Buffer.render_ofText cleared).trans (Except.ok.inj hcontent).symm

/-! ## Plans -/

/-- From the cleared content the same lines are planned, under other names for their sources. -/
theorem planned? {α : Type} [Scale α] (h : Settles tag before cleared stock) (m : Matching α) (versions : VersionSet) :
    m.planned? tag versions before =
      (m.planned? tag versions cleared).map fun x => (x.1.mapSources (retrace stock), x.2) := by
  simp only [Matching.planned?, h.clears, h.clearLines_cleared, Except.toOption, Option.bind_eq_bind, Option.bind_some]
  cases m.select stock.lines versions [] with
  | error fault => rfl
  | ok selected =>
    have hplan := @applyVersion_mapSources _ _ tag (retrace stock) rfl
      ⟨stock.lines, (List.range stock.lines.length).map some⟩
      (selected.placed.map fun p => ((p.position : Int), p.record))
    rw [h.mapSources_retrace] at hplan
    simp only [Option.bind_some, hplan]
    cases applyVersion tag ⟨stock.lines, (List.range stock.lines.length).map some⟩
      (selected.placed.map fun p => ((p.position : Int), p.record)) <;> rfl

/-- What is planned from the cleared content has its lines as sources, and is other lines unless it is the same. -/
theorem of_planned? {α : Type} [Scale α] (h : Settles tag before cleared stock) {m : Matching α}
    {versions : VersionSet} {order : Int} (hplan : m.planned? tag versions cleared = some (planned, order)) :
    planned.Within stock.lines.length ∧ (planned.lines = stock.lines →
      planned = ⟨stock.lines, (List.range stock.lines.length).map some⟩) := by
  simp only [Matching.planned?, h.clearLines_cleared, Except.toOption, Option.bind_eq_bind, Option.bind_some] at hplan
  cases hselect : m.select stock.lines versions [] with
  | error fault =>
    rw [hselect] at hplan
    cases hplan
  | ok selected =>
    simp only [hselect, Option.bind_some] at hplan
    cases hpatched : applyVersion tag ⟨stock.lines, (List.range stock.lines.length).map some⟩
        (selected.placed.map fun p => ((p.position : Int), p.record)) with
    | error e =>
      rw [hpatched] at hplan
      cases hplan
    | ok patched =>
      rw [hpatched] at hplan
      obtain rfl : patched = planned := (Prod.mk.inj (Option.some.inj hplan)).1
      refine ⟨within_applyVersion ⟨by simp, ?_⟩ hpatched, eq_of_lines_applyVersion hpatched⟩
      exact lt_of_mem_map_some fun j hj => List.mem_range.mp hj

/-- Planned lines get the same line ends from the content and from the cleared one. -/
theorem sourcedRows (h : Settles tag before cleared stock) (hs : Steady before cleared stock)
    (hother : stock.lines ≠ (Buffer.ofText before).lines) (hplanned : planned.Within stock.lines.length) :
    (Buffer.ofText cleared).sourcedRows planned.lines planned.sources =
      (Buffer.ofText before).sourcedRows planned.lines (planned.sources.map (retrace stock)) := by
  have hrows := h.rows hother
  have hlen := h.within.length
  have hkeep : (Buffer.ofText cleared).endsWithNewline = (Buffer.ofText before).endsWithNewline := by
    by_cases hnil : stock.lines = []
    · have hnone : stock.sources = [] := List.length_eq_zero_iff.mp (by rw [hlen, hnil, List.length_nil])
      have hcleared : (Buffer.ofText cleared).rows = [] := by
        rw [hrows, hnil, hnone]
        rfl
      rcases hs.last with hend | ⟨source, hsource, -⟩
      · rw [hend, Buffer.endsWithNewline, hcleared]
        rfl
      · rw [hnone] at hsource
        cases hsource
    · exact Buffer.endsWithNewline_sourcedRows hlen hnil hrows
  have hends : ∀ source ∈ planned.sources,
      (Buffer.ofText cleared).endingAt source = (Buffer.ofText before).endingAt (retrace stock source) := by
    intro source hsource
    cases source with
    | none => exact hs.newline
    | some i =>
      have hi : i < stock.lines.length := hplanned.sources _ hsource i rfl
      have hi' : i < stock.sources.length := hlen ▸ hi
      have hrow := Buffer.sourcedRows_getElem? (b := Buffer.ofText before) hlen (List.getElem?_eq_getElem hi)
        (List.getElem?_eq_getElem hi')
      have hretrace : retrace stock (some i) = stock.sources[i] := by
        simp [retrace, List.getElem?_eq_getElem hi']
      rw [hretrace]
      conv_lhs => rw [Buffer.endingAt, Buffer.endingOf?, hrows, hrow]
      -- only the last stock line may have lost its line end, and then the prevailing one takes its place
      split
      · rfl
      · rename_i hlost
        rw [not_or] at hlost
        obtain ⟨hkept, hbehind⟩ := hlost
        obtain ⟨last, hlast, heq⟩ := hs.last.resolve_left hkept
        have hindex : stock.sources.length - 1 = i := by omega
        have hsome : stock.sources[i]? = some last := by
          rw [← hindex, ← List.getLast?_eq_getElem?]
          exact hlast
        obtain rfl : stock.sources[i] = last := by
          rw [List.getElem?_eq_getElem hi'] at hsome
          exact Option.some.inj hsome
        rw [heq]
        exact hs.newline
  have hmap : planned.sources.map (Buffer.ofText cleared).endingAt =
      (planned.sources.map (retrace stock)).map (Buffer.ofText before).endingAt := by
    rw [List.map_map]
    exact List.map_congr_left hends
  have hzip : ∀ (b : Buffer) (sources : List (Option Nat)),
      planned.lines.zipWith (fun line source => (⟨line, some (b.endingAt source)⟩ : Row)) sources =
        planned.lines.zipWith (fun line e => ⟨line, some e⟩) (sources.map b.endingAt) := by
    intro b sources
    rw [List.zipWith_map_right]
  rw [Buffer.sourcedRows, Buffer.sourcedRows, hkeep, hzip, hzip, hmap]

/-- Both ways leave the same bytes, if the line ends are steady and the content is not left alone with uneven ones. -/
theorem applied? {α : Type} [Scale α] (h : Settles tag before cleared stock) (hs : Steady before cleared stock)
    {m : Matching α} {versions : VersionSet}
    (heven : (∀ order, m.applied? tag versions before ≠ some (before, order)) ∨ (Buffer.ofText before).IsEven) :
    m.applied? tag versions cleared = m.applied? tag versions before := by
  by_cases hsame : stock.lines = (Buffer.ofText before).lines
  · rw [h.eq_of_lines hsame]
  have hplans := h.planned? m versions
  unfold Matching.applied? at heven ⊢
  cases hplan : m.planned? tag versions cleared with
  | none =>
    rw [hplan] at hplans
    rw [hplans]
    rfl
  | some found =>
    obtain ⟨planned, order⟩ := found
    rw [hplan] at hplans
    rw [hplans] at heven ⊢
    obtain ⟨hwithin, hunchanged⟩ := h.of_planned? hplan
    have hcount : (Buffer.ofText cleared).rows.length = stock.lines.length := by
      rw [h.rows hsame, Buffer.length_sourcedRows h.within.length]
    have hwithin' : (planned.mapSources (retrace stock)).Within (Buffer.ofText before).rows.length := by
      refine ⟨by simp [Sourced.mapSources, hwithin.length], fun source hsource i hi => ?_⟩
      obtain ⟨known, -, rfl⟩ := List.mem_map.mp hsource
      obtain ⟨k, -, hk⟩ := Option.mem_bind_iff.mp hi
      have hk' : stock.sources[k]? = some (some i) := Option.join_eq_some_iff.mp hk
      exact h.within.sources _ (List.mem_of_getElem? hk') i rfl
    have hcontents : contentWith cleared (Buffer.ofText cleared) planned =
        contentWith before (Buffer.ofText before) (planned.mapSources (retrace stock)) := by
      by_cases hstock : planned.lines = stock.lines
      · rw [contentWith_same (hstock.trans h.lines.symm), hunchanged hstock, h.mapSources_retrace, h.content]
      rw [contentWith_other (h.lines ▸ hstock) hwithin.length (hcount ▸ hwithin.sources),
        h.sourcedRows hs hsame hwithin]
      by_cases hdone : planned.lines = (Buffer.ofText before).lines
      · -- the file has the planned lines already: it is left as it is
        have hkept : contentWith before (Buffer.ofText before) (planned.mapSources (retrace stock)) = .ok before :=
          contentWith_same hdone
        rw [hkept]
        rcases heven with hchanged | heven
        · refine absurd ?_ (hchanged order)
          simp [hkept, Except.toOption]
        · rw [hdone, heven.sourcedRows_lines (Buffer.openAtEnd_rowsOf before)]
          · exact congrArg Except.ok (Buffer.render_ofText before)
          · exact hwithin'.length.trans (congrArg List.length hdone)
      · have hother : (planned.mapSources (retrace stock)).lines ≠ (Buffer.ofText before).lines := hdone
        exact (contentWith_other hother hwithin'.length hwithin'.sources).symm
    simp only [Option.map_some, Option.bind_eq_bind, Option.bind_some, hcontents]

end Settles

/-! ## Files -/

namespace Change

section
variable {tag : Tag} {m : Matching Float} {versions : VersionSet} {w w' : World} {p : Path} {here : Location}
  {chars : List Char}

/-- Applying to a file leaves the applied content in it. -/
theorem outcome_applyFile_live (hw : w.tree.Keeps w.cwd p here chars) {after : List Char} {order : Int}
    (happlied : appliedContent tag m versions (Text.ofChars chars) = .ok (Text.ofChars after, order)) (cwd : Location) :
    ∃ written w', (applyFile (.live cwd) tag m p versions).outcome w =
        (.ok (⟨p, Text.ofChars chars, Text.ofChars after, some order⟩, written), w') ∧
      w'.tree.Keeps w'.cwd p here after := by
  have hchange : Attempt.outcome (ofApply (.live cwd) tag m p versions) w =
      (.ok ⟨p, Text.ofChars chars, Text.ofChars after, some order⟩, w) := by
    refine (Attempt.outcome_bind (outcome_readText_live hw cwd) _).trans ?_
    exact Attempt.outcome_bind (Attempt.outcome_ofExcept (.content p) happlied w) _
  obtain ⟨written, w', hrun, -, hkeeps, -⟩ := outcome_committed hchange hw rfl rfl rfl cwd .apply
  exact ⟨written, w', hrun, hkeeps⟩

/-- Clearing a file leaves the cleared content in it. -/
theorem outcome_clearFile_live (hw : w.tree.Keeps w.cwd p here chars) {after : List Char}
    (hcleared : clearedContent tag (Text.ofChars chars) = .ok (Text.ofChars after)) (cwd : Location) :
    ∃ done w', (clearFile (.live cwd) tag p).outcome w = (.ok done, w') ∧ w'.cwd = w.cwd ∧
      w'.tree.Keeps w'.cwd p here after := by
  have hchange : Attempt.outcome (ofClear (.live cwd) tag p) w =
      (.ok ⟨p, Text.ofChars chars, Text.ofChars after, none⟩, w) := by
    refine (Attempt.outcome_bind (outcome_readText_live hw cwd) _).trans ?_
    exact Attempt.outcome_bind (Attempt.outcome_ofExcept (.content p) hcleared w) _
  obtain ⟨written, w', hrun, hcwd, hkeeps, -⟩ := outcome_committed hchange hw rfl rfl rfl cwd .clear
  exact ⟨_, w', hrun, hcwd, hkeeps⟩

/-- What was applied to a file is its applied content, which can be encoded. -/
theorem applied_of_applyFile (hw : w.tree.Keeps w.cwd p here chars) {cwd : Location} {done : Change × Option Path}
    (hdone : (applyFile (.live cwd) tag m p versions).outcome w = (.ok done, w')) :
    ∃ after order, appliedContent tag m versions (Text.ofChars chars) = .ok (Text.ofChars after, order) ∧
      done.1 = ⟨p, Text.ofChars chars, Text.ofChars after, some order⟩ ∧ w'.tree.Keeps w'.cwd p here after := by
  rcases Attempt.bind_cases hdone with ⟨fault, -, hfault⟩ | ⟨c, w₁, hchange, hcommit⟩
  · cases hfault
  rcases Attempt.bind_cases ((Attempt.outcome_bind (outcome_readText_live hw cwd) _).symm.trans hchange) with
    ⟨fault, -, hfault⟩ | ⟨⟨content, order⟩, w₂, happlied, hpure⟩
  · cases hfault
  have happlied' : appliedContent tag m versions (Text.ofChars chars) = .ok (content, order) :=
    Attempt.value_ofExcept_eq_ok (congrArg Prod.fst happlied)
  obtain rfl : (⟨p, Text.ofChars chars, content, some order⟩ : Change) = c := Except.ok.inj (Prod.mk.inj hpure).1
  -- a content that cannot be encoded is refused where it is written
  have hchars : ∃ after, content = Text.ofChars after := by
    rcases Attempt.bind_cases hcommit with ⟨fault, -, hfault⟩ | ⟨written, w₃, hwrite, -⟩
    · cases hfault
    unfold commit at hwrite
    cases hchanged : Change.changed ⟨p, Text.ofChars chars, content, some order⟩ with
    | false => exact ⟨chars, by simpa [changed] using hchanged⟩
    | true =>
      simp only [hchanged, Bool.not_true, Bool.false_eq_true, if_false] at hwrite
      rcases Attempt.bind_cases hwrite with ⟨fault, -, hfault⟩ | ⟨destination, w₄, hput, -⟩
      · cases hfault
      · obtain ⟨-, there, after, -, htext, -⟩ := ((Sandbox.live cwd).ends_writeText w₁ p content).of_ok hput
        exact ⟨after, htext⟩
  obtain ⟨after, rfl⟩ := hchars
  obtain ⟨written, w₃, hrun, hkeeps⟩ := outcome_applyFile_live hw happlied' cwd
  obtain ⟨hresult, rfl⟩ := Prod.mk.inj (hrun.symm.trans hdone)
  obtain rfl := Except.ok.inj hresult
  exact ⟨after, order, happlied', rfl, hkeeps⟩

end

/-- A content that settles when it is cleared is planned the same lines as the cleared one, by the same version, or
neither is planned any. With steady line ends, both are left with the same bytes, unless the content has the planned
lines already and line ends that are not all the same; so a file that a version is applied to is left as it would be if
it was cleared first. -/
theorem apply_settled {tag : Tag} {before cleared : Text} {stock : Sourced Nat} (h : Settles tag before cleared stock) :
    clearedContent tag before = .ok cleared ∧
      (∀ {α : Type} [Scale α] (m : Matching α) (versions : VersionSet),
        (m.planned? tag versions before).map (fun x => (x.1.lines, x.2)) =
          (m.planned? tag versions cleared).map fun x => (x.1.lines, x.2)) ∧
      (Steady before cleared stock →
        (∀ {α : Type} [Scale α] (m : Matching α) (versions : VersionSet),
          (∀ order, m.applied? tag versions before ≠ some (before, order)) ∨ (Buffer.ofText before).IsEven →
            m.applied? tag versions cleared = m.applied? tag versions before) ∧
        ∀ (m : Matching Float) (versions : VersionSet) (chars : List Char) (w w₁ : World) (p : Path)
          (done : Change × Option Path), before = Text.ofChars chars → w.tree.read w.cwd p = .ok (.text chars) →
            (w.tree.write w.cwd p before).2 = none →
            (applyFile (.live w.cwd) tag m p versions).outcome w = (.ok done, w₁) →
            done.1.changed = true ∨ (Buffer.ofText before).IsEven →
              ∃ first w₂ again w₃, (clearFile (.live w.cwd) tag p).outcome w = (.ok first, w₂) ∧
                (applyFile (.live w.cwd) tag m p versions).outcome w₂ = (.ok again, w₃) ∧
                again.1.content = done.1.content ∧ w₃.tree.read w₃.cwd p = w₁.tree.read w₁.cwd p) := by
  refine ⟨h.clearedContent, fun m versions => ?_, fun hs => ⟨fun m versions => h.applied? hs, ?_⟩⟩
  · rw [h.planned? m versions, Option.map_map]
    rfl
  · rintro m versions chars w w₁ p done rfl hread hwrite hdone heven
    obtain ⟨here, hw⟩ := Tree.keeps_of_write hread hwrite
    obtain ⟨after, order, happlied, hchange, hw₁⟩ := applied_of_applyFile hw hdone
    have heven' : (∀ order, m.applied? tag versions (Text.ofChars chars) ≠ some (Text.ofChars chars, order)) ∨
        (Buffer.ofText (Text.ofChars chars)).IsEven := by
      refine heven.imp_left fun hchanged other hsame => ?_
      rw [← toOption_appliedContent, happlied] at hsame
      have hcontent : Text.ofChars after = Text.ofChars chars := (Prod.mk.inj (Option.some.inj hsame)).1
      simp [hchange, changed, hcontent] at hchanged
    have hwhole : cleared.IsWhole := by
      obtain ⟨content, hcontent, hwhole⟩ := contentWith_total h.within (Text.isWhole_ofChars chars)
        (isWhole_clearLines h.clears (isWhole_lines (Text.isWhole_ofChars chars)))
      rw [h.content] at hcontent
      exact Except.ok.inj hcontent ▸ hwhole
    obtain ⟨rest, hrest⟩ := hwhole.exists_chars
    obtain rfl := Text.isWhole_of_chars? hrest
    obtain ⟨first, w₂, hfirst, -, hw₂⟩ := outcome_clearFile_live hw h.clearedContent w.cwd
    have hagain : appliedContent tag m versions (Text.ofChars rest) = .ok (Text.ofChars after, order) := by
      have hsame := h.applied? hs heven'
      rw [← toOption_appliedContent, ← toOption_appliedContent, happlied] at hsame
      cases hresult : appliedContent tag m versions (Text.ofChars rest) with
      | error fault => simp [hresult, Except.toOption] at hsame
      | ok result =>
        rw [hresult] at hsame
        rw [Option.some.inj hsame]
    obtain ⟨written, w₃, hrun, hw₃⟩ := outcome_applyFile_live hw₂ hagain w.cwd
    refine ⟨first, w₂, _, w₃, hfirst, hrun, by rw [hchange], ?_⟩
    rw [hw₃.read, hw₁.read]

/-- A guarded addition in a file with one kind of line end. -/
def olderText : Text := "int a;\r\n// Mod: Begin\r\nint x;\r\n// Mod: End\r\nint b;\r\n"

/-- The file with the addition in its newer version. -/
def newerText : Text := "int a;\r\n// Mod: Begin\r\nint y;\r\n// Mod: End\r\nint b;\r\n"

/-- The newer version of an addition, between lines of its file. -/
def newerAddition (preceding following : List Text) : VersionSet where
  targetPath := "a.c"
  versions :=
    [⟨2, Store.emptyWorld.clock,
      [{ targetPath := "a.c", kind := .addition, preceding, following, body := ["int y;"], anchor := preceding.length,
         order := 2 }]⟩]

/-- The newer version of the addition to the file. -/
def newerVersions : VersionSet := newerAddition ["int a;"] ["int b;"]

/-- A newer version of an addition to an empty file. -/
def ownVersions : VersionSet := newerAddition [] []

theorem settles_olderText :
    Settles sampleTag olderText "int a;\r\nint b;\r\n" ⟨["int a;", "int b;"], [some 0, some 4]⟩ :=
  ⟨by decide, by rfl, by decide, by decide⟩

theorem apply_settled_sample :
    Settles sampleTag olderText "int a;\r\nint b;\r\n" ⟨["int a;", "int b;"], [some 0, some 4]⟩ ∧
      Steady olderText "int a;\r\nint b;\r\n" ⟨["int a;", "int b;"], [some 0, some 4]⟩ ∧
      Matching.usual.applied? sampleTag newerVersions olderText = some (newerText, 2) ∧
      Matching.usual.applied? sampleTag newerVersions "int a;\r\nint b;\r\n" = some (newerText, 2) := by
  have hsteady : Steady olderText "int a;\r\nint b;\r\n" ⟨["int a;", "int b;"], [some 0, some 4]⟩ :=
    ⟨by decide, .inl (by decide)⟩
  have heven : (Buffer.ofText olderText).IsEven := by
    unfold Buffer.IsEven
    decide
  have hdirect : Matching.usual.applied? sampleTag newerVersions olderText = some (newerText, 2) := by
    with_unfolding_all decide
  obtain ⟨-, -, happly⟩ := apply_settled settles_olderText
  have hsame := (happly hsteady).1 Matching.usual newerVersions (.inr heven)
  exact ⟨settles_olderText, hsteady, hdirect, hsame.trans hdirect⟩

/-- An addition that is all of a file, with other line ends than a file gets that is written anew. -/
def ownedText : Text := "// Mod: Begin\r\nint x;\r\n// Mod: End\r\n"

/-- A file that is made of guarded lines only is empty when it is cleared, and its kind of line end is lost. A newer
version is then applied with another kind than in place. -/
theorem apply_owned :
    Settles sampleTag ownedText [] ⟨[], []⟩ ∧ clearedContent sampleTag ownedText = .ok [] ∧
      Matching.usual.applied? sampleTag ownVersions ownedText =
        some (("// Mod: Begin\r\nint y;\r\n// Mod: End\r\n" : Text), 2) ∧
      Matching.usual.applied? sampleTag ownVersions [] =
        some (("// Mod: Begin\nint y;\n// Mod: End\n" : Text), 2) ∧
      Matching.usual.applied? sampleTag ownVersions [] ≠ Matching.usual.applied? sampleTag ownVersions ownedText := by
  have hdirect : Matching.usual.applied? sampleTag ownVersions ownedText =
      some (("// Mod: Begin\r\nint y;\r\n// Mod: End\r\n" : Text), 2) := by
    with_unfolding_all decide
  have hcleared : Matching.usual.applied? sampleTag ownVersions [] =
      some (("// Mod: Begin\nint y;\n// Mod: End\n" : Text), 2) := by
    with_unfolding_all decide
  refine ⟨⟨by decide, by rfl, by decide, by decide⟩, by rfl, hdirect, hcleared, ?_⟩
  rw [hdirect, hcleared]
  decide

end Change

end Regraft

import Regraft.Proofs.Text.Buffer
import Regraft.Proofs.Text.Scan
/-!
# Reading rows again

Rows are rendered as they are, and what comes of that is split at line ends again. Two rows do not come back: a line
that ends in a carriage return and has a line feed behind it, for the two are read as one line end, and an empty line
with no line end behind it, of which there is nothing to read. `Row.reread` is what is read instead.

* `rowsOf_flatMap_render`: what is read from the text of rows is, row by row, what each of them is read into;
* `lines_flatMap_reread`: the lines come back if and only if every row is legible;
* `exists_of_mem_lines`: where a line stands in its text;
* `readable_rowsOf`, `rowsOf_render`: rows whose lines hold no carriage returns come back as they are;
* `ofText_bijective`: a text is its lines and line ends put together, and these are the only ones (`IsSplit`).
-/
namespace Regraft

/-- All rows but the last one have a line end. -/
def OpenAtEnd : List Row → Prop
  | [] => True
  | row :: rows => (row.ending = none → rows = []) ∧ OpenAtEnd rows

theorem OpenAtEnd.of_append {front back : List Row} (h : OpenAtEnd (front ++ back)) : OpenAtEnd back := by
  induction front with
  | nil => exact h
  | cons row front ih => exact ih h.2

/-- A row without a line end has no row behind it. -/
theorem openAtEnd_iff {rows : List Row} :
    OpenAtEnd rows ↔ ∀ i row, rows[i]? = some row → row.ending = none → i + 1 = rows.length := by
  induction rows with
  | nil => simp [OpenAtEnd]
  | cons row rows ih =>
    rw [OpenAtEnd, ih]
    constructor
    · intro h i found hfound hnone
      cases i with
      | zero =>
        obtain rfl : row = found := by simpa using hfound
        simp [h.1 hnone]
      | succ i => simpa using h.2 i found (by simpa using hfound) hnone
    · intro h
      refine ⟨fun hnone => ?_, fun i found hfound hnone => ?_⟩
      · simpa using (h 0 row rfl hnone).symm
      · simpa using h (i + 1) found (by simpa using hfound) hnone

namespace Row

/-- What a row is read into when its text is split at line ends. -/
def reread (row : Row) : List Row :=
  match row.ending with
  | some .lf => if row.line.getLast? = some (char '\r') then [⟨row.line.dropLast, some .crlf⟩] else [row]
  | some .crlf => [row]
  | none => if row.line = [] then [] else [row]

/-- The line of a row is told from the line end behind it, and there is one of the two. -/
structure IsLegible (row : Row) : Prop where
  returns : row.ending = some .lf → row.line.getLast? ≠ some (char '\r')
  solid : row.ending = none → row.line ≠ []

instance (row : Row) : Decidable row.IsLegible :=
  decidable_of_iff ((row.ending = some .lf → row.line.getLast? ≠ some (char '\r')) ∧
      (row.ending = none → row.line ≠ []))
    ⟨fun h => ⟨h.1, h.2⟩, fun h => ⟨h.returns, h.solid⟩⟩

variable {row : Row}

/-- A legible row is read as it is. -/
theorem IsLegible.reread_eq (h : row.IsLegible) : row.reread = [row] := by
  unfold reread
  cases hending : row.ending with
  | none => rw [if_neg (h.solid hending)]
  | some e =>
    cases e with
    | lf => rw [if_neg (h.returns hending)]
    | crlf => rfl

/-- A row with a line end is read into one row, which has the same line if and only if the row is legible. -/
theorem exists_reread_eq (h : row.ending ≠ none) :
    ∃ read : Row, row.reread = [read] ∧ (read.line = row.line ↔ row.IsLegible) := by
  by_cases hlegible : row.IsLegible
  · exact ⟨row, hlegible.reread_eq, by simp [hlegible]⟩
  · -- Only a carriage return in front of a line feed makes such a row illegible.
    have hreturn : row.ending = some .lf ∧ row.line.getLast? = some (char '\r') := by
      by_contra hno
      exact hlegible ⟨fun hlf hcr => hno ⟨hlf, hcr⟩, fun hnone => absurd hnone h⟩
    refine ⟨⟨row.line.dropLast, some .crlf⟩, by simp [reread, hreturn], ?_⟩
    refine iff_of_false (fun hline => ?_) hlegible
    have hlength := congrArg List.length hline
    have hpos : 0 < row.line.length := List.length_pos_of_mem (List.mem_of_getLast? hreturn.2)
    rw [List.length_dropLast] at hlength
    omega

end Row

namespace Buffer

/-! ## Texts and their rows -/

theorem openAtEnd_rowsOf (t : Text) : OpenAtEnd (rowsOf t) := by
  fun_induction rowsOf t with
  | case1 => trivial
  | case2 cs ih => exact ⟨by simp, ih⟩
  | case3 cs ih => exact ⟨by simp, ih⟩
  | case4 c cs hlf hcr hnil ih => exact ⟨fun _ => rfl, trivial⟩
  | case5 c cs hlf hcr row rows hrows ih =>
    rw [hrows] at ih
    exact ih

theorem oneLine_rowsOf (t : Text) : ∀ row ∈ rowsOf t, OneLine row.line := by
  fun_induction rowsOf t with
  | case1 => simp
  | case2 cs ih => exact List.forall_mem_cons.mpr ⟨by simp [OneLine], ih⟩
  | case3 cs ih => exact List.forall_mem_cons.mpr ⟨by simp [OneLine], ih⟩
  | case4 c cs hlf hcr hnil ih => simpa [OneLine] using hlf
  | case5 c cs hlf hcr row rows hrows ih =>
    rw [hrows] at ih
    obtain ⟨hrow, hrest⟩ := List.forall_mem_cons.mp ih
    exact List.forall_mem_cons.mpr ⟨List.forall_mem_cons.mpr ⟨hlf, hrow⟩, hrest⟩

theorem oneLine_lines (t : Text) : ∀ l ∈ (ofText t).lines, OneLine l :=
  List.forall_mem_map.mpr (oneLine_rowsOf t)

/-- A line stands at the end of its text or in front of a line end. -/
theorem exists_of_mem_lines {t line : Text} (h : line ∈ (ofText t).lines) :
    ∃ before behind, t = before ++ (line ++ behind) ∧ ∀ c ∈ behind.head?, c = char '\n' ∨ c = char '\r' := by
  obtain ⟨row, hrow, rfl⟩ := List.mem_map.mp h
  obtain ⟨front, back, hrows⟩ := List.append_of_mem hrow
  have hopen : OpenAtEnd (row :: back) := (hrows ▸ openAtEnd_rowsOf t : OpenAtEnd (front ++ row :: back)).of_append
  have ht : t = front.flatMap Row.render ++ (row.render ++ back.flatMap Row.render) := by
    rw [← render_ofText t, render, hrows, List.flatMap_append, List.flatMap_cons]
  rw [Row.render, List.append_assoc] at ht
  refine ⟨_, _, ht, ?_⟩
  cases hending : row.ending with
  | none =>
    obtain rfl := hopen.1 hending
    simp
  | some e => cases e <;> simp [Newline.text]

theorem openAtEnd_closeLast (keep : Bool) {rows : List Row} (h : ∀ row ∈ rows, row.ending ≠ none) :
    OpenAtEnd (closeLast keep rows) := by
  fun_induction closeLast keep rows with
  | case1 => trivial
  | case2 row => exact ⟨fun _ => rfl, trivial⟩
  | case3 row rows hne ih =>
    obtain ⟨hrow, hrows⟩ := List.forall_mem_cons.mp h
    exact ⟨fun hnone => absurd hnone hrow, ih hrows⟩

theorem openAtEnd_sourcedRows {b : Buffer} (lines : List Text) (sources : List (Option Nat)) :
    OpenAtEnd (b.sourcedRows lines sources) := by
  refine openAtEnd_closeLast _ fun row hrow => ?_
  obtain ⟨i, hi⟩ := List.getElem?_of_mem hrow
  rw [List.getElem?_zipWith] at hi
  split at hi
  · exact Option.some.inj hi ▸ Option.some_ne_none _
  · cases hi

/-! ## Reading -/

/-- A line and its line end are read into what the row is read into. -/
theorem rowsOf_line_append {line : Text} (h : OneLine line) (e : Newline) (rest : Text) :
    rowsOf (line ++ (e.text ++ rest)) = Row.reread ⟨line, some e⟩ ++ rowsOf rest := by
  by_cases hreturn : e = .lf ∧ line.getLast? = some (char '\r')
  · -- The text is that of the line without its last character, which is part of the line end.
    obtain ⟨rfl, hlast⟩ := hreturn
    obtain ⟨init, rfl⟩ := List.getLast?_eq_some_iff.mp hlast
    have hinit : OneLine init := h.of_sublist (List.sublist_append_left _ _)
    have hread := rowsOf_append hinit (e := .crlf) (fun hcrlf => by cases hcrlf) rest
    simpa [Row.reread, Newline.text] using hread
  · have hlegible : Row.IsLegible ⟨line, some e⟩ :=
      ⟨fun hlf hlast => hreturn ⟨Option.some.inj hlf, hlast⟩, fun hnone => by cases hnone⟩
    rw [hlegible.reread_eq, rowsOf_append h fun he hlast => hreturn ⟨he, hlast⟩]
    rfl

/-- What is read from the text of rows is, row by row, what each of them is read into. -/
theorem rowsOf_flatMap_render {rows : List Row} (hopen : OpenAtEnd rows) (h : ∀ row ∈ rows, OneLine row.line) :
    rowsOf (rows.flatMap Row.render) = rows.flatMap Row.reread := by
  induction rows with
  | nil => rfl
  | cons row rows ih =>
    obtain ⟨hrow, hrows⟩ := List.forall_mem_cons.mp h
    obtain ⟨line, ending⟩ := row
    cases ending with
    | none =>
      obtain rfl := hopen.1 rfl
      simp only [List.flatMap_cons, List.flatMap_nil, List.append_nil, Row.render, Row.reread]
      split
      · rename_i hempty
        rw [hempty]
        rfl
      · exact rowsOf_oneLine hrow ‹_›
    | some e =>
      simp only [List.flatMap_cons, Row.render, List.append_assoc]
      rw [rowsOf_line_append hrow, ih hopen.2 hrows]

/-- Lines come back from what their rows are read into if and only if every row is legible. -/
theorem lines_flatMap_reread {rows : List Row} (hopen : OpenAtEnd rows) :
    (rows.flatMap Row.reread).map Row.line = rows.map Row.line ↔ ∀ row ∈ rows, row.IsLegible := by
  induction rows with
  | nil => simp
  | cons row rows ih =>
    rw [List.forall_mem_cons, ← ih hopen.2]
    by_cases hending : row.ending = none
    · obtain rfl := hopen.1 hending
      by_cases hempty : row.line = []
      · have hillegible : ¬ row.IsLegible := fun h => h.solid hending hempty
        simp [Row.reread, hending, hempty, hillegible]
      · have hlegible : row.IsLegible := ⟨fun hlf => by simp [hending] at hlf, fun _ => hempty⟩
        simp [hlegible.reread_eq, hlegible]
    · obtain ⟨read, hread, hline⟩ := Row.exists_reread_eq hending
      simp [hread, hline]

/-- The rows of a text are legible, for they are what the text is read into. -/
theorem legible_rowsOf (t : Text) : ∀ row ∈ rowsOf t, row.IsLegible := by
  -- The text is the rendering of its rows, so reading it again gives the same lines.
  have hread := rowsOf_flatMap_render (openAtEnd_rowsOf t) (oneLine_rowsOf t)
  rw [flatMap_render_rowsOf] at hread
  exact (lines_flatMap_reread (openAtEnd_rowsOf t)).mp (congrArg (List.map Row.line) hread.symm)

/-- Legible rows are read back from their text. -/
theorem rowsOf_render_of_legible {rows : List Row} (hopen : OpenAtEnd rows)
    (h : ∀ row ∈ rows, OneLine row.line ∧ row.IsLegible) : rowsOf (rows.flatMap Row.render) = rows := by
  rw [rowsOf_flatMap_render hopen fun row hrow => (h row hrow).1]
  clear hopen
  induction rows with
  | nil => rfl
  | cons row rows ih =>
    obtain ⟨hrow, hrows⟩ := List.forall_mem_cons.mp h
    rw [List.flatMap_cons, hrow.2.reread_eq, ih hrows]
    rfl

/-! ## Rows without stray carriage returns -/

theorem unbroken_of_not_ending {c : CodePoint} {cs : Text} (h : ReturnsEnd (c :: cs)) (hlf : c = char '\n' → False)
    (hcr : ∀ rest, c = char '\r' → cs = char '\n' :: rest → False) : c ≠ char '\n' ∧ c ≠ char '\r' := by
  refine ⟨hlf, ?_⟩
  intro hx
  subst hx
  have hnext := h.1 rfl
  cases cs with
  | nil => cases hnext
  | cons d rest =>
    obtain rfl : d = char '\n' := by simpa using hnext
    exact hcr rest rfl rfl

theorem unbroken_rowsOf {t : Text} (h : ReturnsEnd t) : ∀ row ∈ rowsOf t, Unbroken row.line := by
  fun_induction rowsOf t with
  | case1 => simp
  | case2 cs ih => exact List.forall_mem_cons.mpr ⟨by simp [Unbroken], ih h.2⟩
  | case3 cs ih => exact List.forall_mem_cons.mpr ⟨by simp [Unbroken], ih h.2.2⟩
  | case4 c cs hlf hcr hnil ih => simpa [Unbroken] using unbroken_of_not_ending h hlf hcr
  | case5 c cs hlf hcr row rows hrows ih =>
    rw [hrows] at ih
    obtain ⟨hrow, hrest⟩ := List.forall_mem_cons.mp (ih h.2)
    exact List.forall_mem_cons.mpr ⟨List.forall_mem_cons.mpr ⟨unbroken_of_not_ending h hlf hcr, hrow⟩, hrest⟩

/-- A text whose carriage returns are all in line ends is read into unbroken lines. -/
theorem readable_rowsOf {t : Text} (h : ReturnsEnd t) : Readable (rowsOf t) where
  unbroken := unbroken_rowsOf h
  solid row hrow := (legible_rowsOf t row hrow).solid
  closed := openAtEnd_iff.mp (openAtEnd_rowsOf t)

/-- Unbroken rows are read back from their rendering. -/
theorem rowsOf_render {rows : List Row} (h : Readable rows) : rowsOf (rows.flatMap Row.render) = rows :=
  rowsOf_render_of_legible (openAtEnd_iff.mpr h.closed) fun row hrow =>
    ⟨(h.unbroken row hrow).oneLine, fun _ => (h.unbroken row hrow).getLast?_ne, h.solid row hrow⟩

/-- New unbroken lines are read back from their text. -/
theorem ofText_sourcedRows {b : Buffer} {lines : List Text} {sources : List (Option Nat)}
    (hlen : sources.length = lines.length) (hl : ∀ line ∈ lines, Unbroken line)
    (hlast : b.endsWithNewline = false → ∀ line ∈ lines.getLast?, line ≠ []) :
    (ofText ((b.sourcedRows lines sources).flatMap Row.render)).rows = b.sourcedRows lines sources ∧
      (ofText ((b.sourcedRows lines sources).flatMap Row.render)).lines = lines := by
  have hrows := rowsOf_render (readable_sourcedRows hlen hl hlast)
  refine ⟨hrows, ?_⟩
  rw [Buffer.lines, ofText, hrows, map_line_sourcedRows hlen]

/-! ## Lines and line ends -/

/-- Lines and line ends into which a text can be split. -/
structure IsSplit (lines : List Text) (endings : List (Option Newline)) : Prop where
  length_eq : endings.length = lines.length
  oneLine : ∀ line ∈ lines, OneLine line
  /-- Only the last line may have no line end, and it is not empty then. -/
  closed : ∀ i : Nat, endings[i]? = some none → i + 1 = endings.length ∧ lines[i]? ≠ some []
  /-- A carriage return in front of a line feed belongs to the line end. -/
  returns : ∀ (i : Nat) (line : Text), lines[i]? = some line → endings[i]? = some (some .lf) →
    line.getLast? ≠ some (char '\r')

/-- The buffer of lines and their line ends. -/
def ofLines (lines : List Text) (endings : List (Option Newline)) (newline : Newline) : Buffer :=
  ⟨lines.zipWith Row.mk endings, newline⟩

theorem lines_ofLines {lines : List Text} {endings : List (Option Newline)} (h : endings.length = lines.length)
    (newline : Newline) :
    (ofLines lines endings newline).lines = lines ∧ (ofLines lines endings newline).endings = endings := by
  simp only [ofLines, Buffer.lines, Buffer.endings]
  induction lines generalizing endings with
  | nil => exact ⟨rfl, (List.length_eq_zero_iff.mp h).symm⟩
  | cons line lines ih =>
    cases endings with
    | nil => cases h
    | cons e endings => simpa using ih (Nat.succ.inj h)

/-- The lines and line ends of rows are a split if and only if the rows are legible and open at the end alone. -/
theorem isSplit_rows {rows : List Row} :
    IsSplit (rows.map Row.line) (rows.map Row.ending) ↔
      OpenAtEnd rows ∧ ∀ row ∈ rows, OneLine row.line ∧ row.IsLegible := by
  have hline : ∀ (i : Nat) (line : Text),
      (rows.map Row.line)[i]? = some line ↔ ∃ row, rows[i]? = some row ∧ row.line = line := by simp
  have hending : ∀ (i : Nat) (e : Option Newline),
      (rows.map Row.ending)[i]? = some e ↔ ∃ row, rows[i]? = some row ∧ row.ending = e := by simp
  constructor
  · intro h
    refine ⟨openAtEnd_iff.mpr fun i row hrow hnone => ?_, fun row hmem => ?_⟩
    · simpa using (h.closed i ((hending i none).mpr ⟨row, hrow, hnone⟩)).1
    · obtain ⟨i, hrow⟩ := List.getElem?_of_mem hmem
      refine ⟨h.oneLine _ (List.mem_map_of_mem hmem), fun hlf => ?_, fun hnone hempty => ?_⟩
      · exact h.returns i row.line ((hline i _).mpr ⟨row, hrow, rfl⟩) ((hending i _).mpr ⟨row, hrow, hlf⟩)
      · exact (h.closed i ((hending i none).mpr ⟨row, hrow, hnone⟩)).2 ((hline i []).mpr ⟨row, hrow, hempty⟩)
  · intro hx
    obtain ⟨hopen, hlegible⟩ := hx
    refine ⟨by simp, List.forall_mem_map.mpr fun row hmem => (hlegible row hmem).1, fun i hi => ?_,
      fun i line hi hlf => ?_⟩
    · obtain ⟨row, hrow, hnone⟩ := (hending i none).mp hi
      refine ⟨by simpa using openAtEnd_iff.mp hopen i row hrow hnone, fun hempty => ?_⟩
      obtain ⟨row', hrow', hline'⟩ := (hline i []).mp hempty
      obtain rfl := Option.some.inj (hrow.symm.trans hrow')
      exact (hlegible row (List.mem_of_getElem? hrow)).2.solid hnone hline'
    · obtain ⟨row, hrow, rfl⟩ := (hline i line).mp hi
      obtain ⟨row', hrow', hlf'⟩ := (hending i _).mp hlf
      obtain rfl := Option.some.inj (hrow.symm.trans hrow')
      exact (hlegible row (List.mem_of_getElem? hrow)).2.returns hlf'

/-- The lines and line ends of a text are a split. -/
theorem isSplit_ofText (t : Text) : IsSplit (ofText t).lines (ofText t).endings :=
  (isSplit_rows ..).mpr ⟨openAtEnd_rowsOf t, fun row hrow => ⟨oneLine_rowsOf t row hrow, legible_rowsOf t row hrow⟩⟩

/-- A split is read back from the text that it comes to. -/
theorem ofText_ofLines {lines : List Text} {endings : List (Option Newline)} (h : IsSplit lines endings)
    (newline : Newline) :
    (ofText (ofLines lines endings newline).render).lines = lines ∧
      (ofText (ofLines lines endings newline).render).endings = endings := by
  obtain ⟨hlines, hendings⟩ := lines_ofLines h.length_eq newline
  obtain ⟨hopen, hlegible⟩ : OpenAtEnd (ofLines lines endings newline).rows ∧
      ∀ row ∈ (ofLines lines endings newline).rows, OneLine row.line ∧ row.IsLegible := by
    refine (isSplit_rows ..).mp ?_
    change IsSplit (ofLines lines endings newline).lines (ofLines lines endings newline).endings
    rwa [hlines, hendings]
  have hread : (ofText (ofLines lines endings newline).render).rows = (ofLines lines endings newline).rows :=
    rowsOf_render_of_legible hopen hlegible
  exact ⟨(congrArg (List.map Row.line) hread).trans hlines, (congrArg (List.map Row.ending) hread).trans hendings⟩

/-- Splitting a text and putting its lines and line ends together undo each other. A text is what its own lines and line
ends come to, and these are a split; lines and line ends are those of the text that they come to if and only if they
are a split. -/
theorem ofText_bijective (t : Text) (lines : List Text) (endings : List (Option Newline)) :
    ((ofText t).render = t ∧ IsSplit (ofText t).lines (ofText t).endings) ∧
      (IsSplit lines endings ↔ ∀ newline, (ofText (ofLines lines endings newline).render).lines = lines ∧
        (ofText (ofLines lines endings newline).render).endings = endings) := by
  refine ⟨⟨render_ofText t, isSplit_ofText t⟩, ofText_ofLines, fun h => ?_⟩
  have hread := isSplit_ofText (ofLines lines endings .lf).render
  rwa [(h .lf).1, (h .lf).2] at hread

/-- Of two carriage returns in front of a line feed one is in the line; at the end of the text there is no line end. -/
example : (ofText "a\r\r\n\nb\r").lines = (["a\r", "", "b\r"] : List Text) ∧
    (ofText "a\r\r\n\nb\r").endings = [some .crlf, some .lf, none] := by decide

end Buffer

end Regraft

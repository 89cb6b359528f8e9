import Regraft.Text.Buffer
import Regraft.Proofs.Text.Scan
/-!
# Buffers keep line ends

A text is the rendering of its rows (`render_ofText`). A carriage return that ends no line would be read as part of a
line end once its line is rendered with one, so lines that get new line ends must not hold any (`Unbroken`).

* `withLines_eq`: new lines take over the line ends of the lines that they come from;
* `sourcedRows_restored`: lines that come back from a patched buffer get the line ends that they had, also the last
  one, which has none if the text ended without.
-/
namespace Regraft

/-- Every carriage return of a text is right before a line feed. -/
def ReturnsEnd : Text → Prop
  | [] => True
  | c :: cs => (c = char '\r' → cs.head? = some (char '\n')) ∧ ReturnsEnd cs

instance decidableReturnsEnd : DecidablePred ReturnsEnd
  | [] => isTrue trivial
  | c :: cs =>
    have := decidableReturnsEnd cs
    inferInstanceAs (Decidable ((c = char '\r' → cs.head? = some (char '\n')) ∧ ReturnsEnd cs))

/-- A text without characters of line ends. -/
def Unbroken (t : Text) : Prop := ∀ c ∈ t, c ≠ char '\n' ∧ c ≠ char '\r'

theorem Unbroken.oneLine {t : Text} (h : Unbroken t) : OneLine t := fun c hc => (h c hc).1

theorem Unbroken.getLast?_ne {t : Text} (h : Unbroken t) : t.getLast? ≠ some (char '\r') :=
  fun hlast => (h _ (List.mem_of_getLast? hlast)).2 rfl

/-- Rows of a text whose carriage returns are all in line ends: unbroken lines, of which only the last one may end with
the text, and that only if there is something in it. -/
structure Readable (rows : List Row) : Prop where
  unbroken : ∀ row ∈ rows, Unbroken row.line
  solid : ∀ row ∈ rows, row.ending = none → row.line ≠ []
  closed : ∀ i row, rows[i]? = some row → row.ending = none → i + 1 = rows.length

namespace Buffer

/-! ## Reading -/

theorem flatMap_render_rowsOf (t : Text) : (rowsOf t).flatMap Row.render = t := by
  fun_induction rowsOf t with
  | case1 => rfl
  | case2 cs ih => simp [Row.render, Newline.text, ih]
  | case3 cs ih => simp [Row.render, Newline.text, ih]
  | case4 c cs hlf hcr hnil ih =>
    rw [hnil] at ih
    obtain rfl : [] = cs := ih
    rfl
  | case5 c cs hlf hcr row rows hrows ih =>
    rw [hrows] at ih
    simpa [Row.render] using ih

/-- A text has no more rows than characters. -/
theorem length_rowsOf_le (t : Text) : (rowsOf t).length ≤ t.length := by
  fun_induction rowsOf t <;> simp_all <;> omega

/-- A character that is no part of a line end belongs to the first line. -/
theorem rowsOf_cons {c : CodePoint} {cs : Text} (hlf : c ≠ char '\n')
    (hcr : c = char '\r' → cs.head? ≠ some (char '\n')) :
    rowsOf (c :: cs) = match rowsOf cs with
      | [] => [⟨[c], none⟩]
      | row :: rows => { row with line := c :: row.line } :: rows := by
  refine rowsOf.eq_4 c cs hlf fun rest hc hrest => ?_
  exact hcr hc (by rw [hrest]; rfl)

/-- A text is the rendering of its buffer. -/
theorem render_ofText (t : Text) : (ofText t).render = t := flatMap_render_rowsOf t

/-- A line is read up to its line end, if that does not begin with its last character. -/
theorem rowsOf_append {line : Text} (h : OneLine line) {e : Newline}
    (hreturn : e = .lf → line.getLast? ≠ some (char '\r')) (rest : Text) :
    rowsOf (line ++ (e.text ++ rest)) = ⟨line, some e⟩ :: rowsOf rest := by
  induction line with
  | nil => cases e <;> rfl
  | cons c line ih =>
    obtain ⟨hc, hline⟩ := List.forall_mem_cons.mp h
    have hnext : c = char '\r' → (line ++ (e.text ++ rest)).head? ≠ some (char '\n') := by
      intro hcr
      cases line with
      | nil =>
        cases e with
        | lf => exact absurd (by rw [hcr]; rfl) (hreturn rfl)
        | crlf => simp [Newline.text]
      | cons d line => simpa using hline d List.mem_cons_self
    have hrest : e = .lf → line.getLast? ≠ some (char '\r') := by
      intro he hlast
      refine hreturn he ?_
      rw [List.getLast?_cons, hlast]
      rfl
    rw [List.cons_append, rowsOf_cons hc hnext, ih hline hrest]

theorem rowsOf_oneLine {line : Text} (h : OneLine line) (hne : line ≠ []) : rowsOf line = [⟨line, none⟩] := by
  induction line with
  | nil => exact absurd rfl hne
  | cons c line ih =>
    obtain ⟨hc, hline⟩ := List.forall_mem_cons.mp h
    cases line with
    | nil => exact rowsOf_cons hc fun _ => by simp
    | cons d line =>
      rw [rowsOf_cons hc fun _ => by simpa using hline d List.mem_cons_self, ih hline (List.cons_ne_nil d line)]

/-! ## New lines -/

theorem length_closeLast (keep : Bool) (rows : List Row) : (closeLast keep rows).length = rows.length := by
  fun_induction closeLast keep rows with
  | case1 => rfl
  | case2 row => rfl
  | case3 row rows hne ih => rw [List.length_cons, List.length_cons, ih]

theorem closeLast_getElem? (keep : Bool) (rows : List Row) :
    ∀ i, (closeLast keep rows)[i]? = rows[i]?.map fun row =>
      if keep = true ∨ i + 1 < rows.length then row else { row with ending := none } := by
  fun_induction closeLast keep rows with
  | case1 => simp
  | case2 row =>
    intro i
    cases i with
    | zero => simp
    | succ i => simp
  | case3 row rows hne ih =>
    have hpos : 0 < rows.length := List.length_pos_iff.mpr fun h => hne h
    intro i
    cases i with
    | zero => simp [hpos]
    | succ i => simp [ih i]

/-- The line end that a line with a source takes over. -/
def endingAt (b : Buffer) (source : Option Nat) : Newline := (b.endingOf? source).getD b.newline

variable {b : Buffer} {lines : List Text} {sources : List (Option Nat)}

/-- The rows of new lines with sources among the old ones. -/
def sourcedRows (b : Buffer) (lines : List Text) (sources : List (Option Nat)) : List Row :=
  closeLast b.endsWithNewline (lines.zipWith (fun line source => ⟨line, some (b.endingAt source)⟩) sources)

/-- New lines take over the line ends of the lines that they come from. -/
theorem withLines_eq (hlen : sources.length = lines.length)
    (hs : ∀ source ∈ sources, ∀ i ∈ source, i < b.rows.length) :
    b.withLines lines sources = .ok ⟨b.sourcedRows lines sources, b.newline⟩ := by
  have hends : ∀ source ∈ sources, b.endingOf? source = some (b.endingAt source) := by
    intro source hsource
    cases source with
    | none => rfl
    | some i =>
      have hi := hs _ hsource i rfl
      simp [endingAt, endingOf?, List.getElem?_eq_getElem hi]
  have hmap : sources.mapM b.endingOf? = some (sources.map b.endingAt) := by
    clear hlen hs
    induction sources with
    | nil => rfl
    | cons source sources ih =>
      simp [hends source List.mem_cons_self, ih fun s hs => hends s (List.mem_cons_of_mem _ hs)]
  unfold withLines
  rw [if_neg (by simp [hlen]), hmap]
  simp only [sourcedRows, List.zipWith_map_right]

theorem length_sourcedRows (hlen : sources.length = lines.length) :
    (b.sourcedRows lines sources).length = lines.length := by
  rw [sourcedRows, length_closeLast, List.length_zipWith, hlen, Nat.min_self]

theorem sourcedRows_getElem? (hlen : sources.length = lines.length) {i : Nat} {line : Text} {source : Option Nat}
    (hline : lines[i]? = some line) (hsource : sources[i]? = some source) :
    (b.sourcedRows lines sources)[i]? = some
      ⟨line, if b.endsWithNewline = true ∨ i + 1 < lines.length then some (b.endingAt source) else none⟩ := by
  rw [sourcedRows, closeLast_getElem?, List.getElem?_zipWith, hline, hsource, List.length_zipWith, hlen, Nat.min_self]
  simp only [Option.map_some, Option.some.injEq]
  split <;> rfl

theorem map_line_sourcedRows (hlen : sources.length = lines.length) :
    (b.sourcedRows lines sources).map Row.line = lines := by
  refine List.ext_getElem? fun i => ?_
  rw [List.getElem?_map]
  cases hline : lines[i]? with
  | none =>
    have hi := List.getElem?_eq_none_iff.mp hline
    rw [List.getElem?_eq_none (by rwa [length_sourcedRows hlen])]
    rfl
  | some line =>
    have hi := (List.getElem?_eq_some_iff.mp hline).1
    rw [sourcedRows_getElem? hlen hline (List.getElem?_eq_getElem (hlen ▸ hi))]
    rfl

theorem readable_sourcedRows (hlen : sources.length = lines.length) (hl : ∀ line ∈ lines, Unbroken line)
    (hlast : b.endsWithNewline = false → ∀ line ∈ lines.getLast?, line ≠ []) :
    Readable (b.sourcedRows lines sources) := by
  have hrow : ∀ i row, (b.sourcedRows lines sources)[i]? = some row → lines[i]? = some row.line ∧
      (row.ending = none → b.endsWithNewline = false ∧ i + 1 = lines.length) := by
    intro i row hi
    have hlt := (List.getElem?_eq_some_iff.mp hi).1
    rw [length_sourcedRows hlen] at hlt
    rw [sourcedRows_getElem? hlen (List.getElem?_eq_getElem hlt) (List.getElem?_eq_getElem (hlen ▸ hlt))] at hi
    obtain rfl := Option.some.inj hi
    refine ⟨List.getElem?_eq_getElem hlt, fun hnone => ?_⟩
    simp only [ite_eq_right_iff, reduceCtorEq, imp_false, not_or, Bool.not_eq_true] at hnone
    exact ⟨hnone.1, by omega⟩
  refine ⟨fun row hrows => ?_, fun row hrows hnone => ?_, fun i row hi hnone => ?_⟩
  · obtain ⟨i, hi⟩ := List.getElem?_of_mem hrows
    exact hl _ (List.mem_of_getElem? (hrow i row hi).1)
  · obtain ⟨i, hi⟩ := List.getElem?_of_mem hrows
    obtain ⟨hline, hend⟩ := hrow i row hi
    obtain ⟨hkeep, hlength⟩ := hend hnone
    refine hlast hkeep _ ?_
    rw [List.getLast?_eq_getElem?, ← hlength, Nat.add_sub_cancel, hline]
    rfl
  · rw [length_sourcedRows hlen]
    exact ((hrow i row hi).2 hnone).2

theorem endsWithNewline_eq (b : Buffer) :
    b.endsWithNewline = (b.rows[b.rows.length - 1]?.map fun row => row.ending.isSome).getD true := by
  rw [endsWithNewline, List.getLast?_eq_getElem?]
  cases b.rows[b.rows.length - 1]? <;> rfl

/-- A last line without a line end is not empty. -/
theorem getLast?_lines (hb : Readable b.rows) (h : b.endsWithNewline = false) :
    ∀ line ∈ b.lines.getLast?, line ≠ [] := by
  intro line hline
  rw [Buffer.lines, List.getLast?_map] at hline
  cases hrow : b.rows.getLast? with
  | none => simp [hrow] at hline
  | some row =>
    obtain rfl : row.line = line := by simpa [hrow] using hline
    have hnone : row.ending = none := by simpa [endsWithNewline, hrow] using h
    exact hb.solid row (List.mem_of_mem_getLast? hrow) hnone

/-- New lines end with a line end if and only if the old ones did. -/
theorem endsWithNewline_sourcedRows {b' : Buffer} (hlen : sources.length = lines.length) (hne : lines ≠ [])
    (h : b'.rows = b.sourcedRows lines sources) : b'.endsWithNewline = b.endsWithNewline := by
  have hpos := List.length_pos_iff.mpr hne
  have hlt : lines.length - 1 < lines.length := by omega
  rw [endsWithNewline_eq b', h, length_sourcedRows hlen, sourcedRows_getElem? hlen (List.getElem?_eq_getElem hlt)
    (List.getElem?_eq_getElem (hlen ▸ hlt))]
  have hend : ¬ (lines.length - 1 + 1 < lines.length) := by omega
  cases hkeep : b.endsWithNewline <;> simp [hend]

/-- Lines that come back from a patched buffer have the line ends that they had. -/
theorem sourcedRows_restored {b' : Buffer} (hb : Readable b.rows) (hlen : sources.length = lines.length)
    (h : b'.rows = b.sourcedRows lines sources) {origins : List Nat} (hcount : origins.length = b.rows.length)
    (hsorted : origins.Pairwise (· < ·))
    (hback : ∀ i j : Nat, origins[i]? = some j → sources[j]? = some (some i)) :
    b'.sourcedRows b.lines (origins.map some) = b.rows := by
  have hlines : (origins.map some).length = b.lines.length := by simp [hcount, Buffer.lines]
  refine List.ext_getElem? fun i => ?_
  cases hrow : b.rows[i]? with
  | none =>
    have hi := List.getElem?_eq_none_iff.mp hrow
    rw [List.getElem?_eq_none (by rwa [length_sourcedRows hlines, Buffer.lines, List.length_map])]
  | some row =>
    have hi := (List.getElem?_eq_some_iff.mp hrow).1
    obtain ⟨j, hj⟩ : ∃ j, origins[i]? = some j := ⟨_, List.getElem?_eq_getElem (hcount ▸ hi)⟩
    have hsource := hback i j hj
    have hjlt : j < lines.length := hlen ▸ (List.getElem?_eq_some_iff.mp hsource).1
    have hkeep := endsWithNewline_sourcedRows hlen (List.length_pos_iff.mp (by omega)) h
    have hj' : b'.rows[j]? = some ⟨lines[j], _⟩ :=
      h ▸ sourcedRows_getElem? hlen (List.getElem?_eq_getElem hjlt) hsource
    have hending : b.endingAt (some i) = row.ending.getD b.newline := by simp [endingAt, endingOf?, hrow]
    have hline : b.lines[i]? = some row.line := by simp [Buffer.lines, hrow]
    have hback' : (origins.map some)[i]? = some (some j) := by simp [hj]
    have hnone : row.ending = none ↔ b.endsWithNewline = false ∧ i + 1 = b.rows.length := by
      constructor
      · intro hnone
        have hlast := hb.closed i row hrow hnone
        refine ⟨?_, hlast⟩
        rw [endsWithNewline_eq, ← hlast, Nat.add_sub_cancel, hrow]
        simp [hnone]
      · intro hx
        obtain ⟨hfalse, hlast⟩ := hx
        rw [endsWithNewline_eq, ← hlast, Nat.add_sub_cancel, hrow] at hfalse
        simpa using hfalse
    have hcond : (b.endsWithNewline = true ∨ i + 1 < b.lines.length) ↔ row.ending ≠ none := by
      have hlength : b.lines.length = b.rows.length := List.length_map _
      rw [Ne, hnone, hlength]
      cases b.endsWithNewline with
      | true => simp
      | false =>
        simp only [Bool.false_eq_true, false_or, true_and]
        omega
    rw [sourcedRows_getElem? hlines hline hback', hkeep]
    cases he : row.ending with
    | none => rw [if_neg fun h => hcond.mp h he, ← he]
    | some e =>
      have htrue := hcond.mpr (by simp [he])
      have htrue' : b.endsWithNewline = true ∨ j + 1 < lines.length := by
        refine htrue.imp_right fun hnext => ?_
        have hlt : i + 1 < origins.length := by simpa [hcount, Buffer.lines] using hnext
        have hj₂ := List.getElem?_eq_getElem hlt
        have hinside := (List.getElem?_eq_some_iff.mp (hback _ _ hj₂)).1
        have hmono := List.pairwise_iff_getElem.mp hsorted i (i + 1) (by omega) hlt (Nat.lt_succ_self i)
        rw [(List.getElem?_eq_some_iff.mp hj).2] at hmono
        omega
      rw [if_pos htrue'] at hj'
      have hend : b'.endingAt (some j) = e := by
        rw [endingAt, endingOf?, hj', Option.map_some, Option.getD_some, Option.getD_some, hending, he,
          Option.getD_some]
      rw [if_pos htrue, hend, ← he]

end Buffer

end Regraft

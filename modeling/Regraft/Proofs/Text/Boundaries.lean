import Regraft.Proofs.Text.Reread
/-!
# Line boundaries of rendered rows

A text splits into more lines for a reader of plain text than for a buffer: a form feed and other characters are a
boundary for the one and part of a line for the other. Here rows are rendered by a buffer and split by such a reader.

* `of_mem_splitLines`: no line holds a boundary;
* `splitLines_append`: a line without boundaries is read up to its line end;
* `splitLines_flatMap_render`: the lines of rows come back if and only if every row shows.
-/
namespace Regraft

/-- No boundary is inside the line of a row, and there is something to read of it. -/
structure Row.Shows (row : Row) : Prop where
  unbroken : ∀ c ∈ row.line, isLineBreak c = false
  solid : row.ending = none → row.line ≠ []

/-- A character that is no boundary belongs to the first line. -/
theorem splitLines_cons {c : CodePoint} (h : isLineBreak c = false) (cs : Text) :
    splitLines (c :: cs) = match splitLines cs with
      | [] => [[c]]
      | l :: ls => (c :: l) :: ls := by
  have hreturn : c ≠ char '\r' := fun hc => absurd (hc ▸ h) (by decide)
  exact (splitLines.eq_3 c cs fun rest hc _ => hreturn hc).trans (if_neg (by simp [h]))

/-- No line holds a boundary. -/
theorem of_mem_splitLines {t : Text} : ∀ l ∈ splitLines t, ∀ c ∈ l, isLineBreak c = false := by
  fun_induction splitLines t with
  | case1 => simp
  | case2 cs ih => exact List.forall_mem_cons.mpr ⟨by simp, ih⟩
  | case3 c cs hcr hbreak ih => exact List.forall_mem_cons.mpr ⟨by simp, ih⟩
  | case4 c cs hcr hbreak hnil ih => simpa using hbreak
  | case5 c cs hcr hbreak l ls hlines ih =>
    rw [hlines] at ih
    obtain ⟨hl, hls⟩ := List.forall_mem_cons.mp ih
    exact List.forall_mem_cons.mpr ⟨List.forall_mem_cons.mpr ⟨by simpa using hbreak, hl⟩, hls⟩

/-- A line without boundaries is read up to its line end. -/
theorem splitLines_append {line : Text} (h : ∀ c ∈ line, isLineBreak c = false) (e : Newline) (rest : Text) :
    splitLines (line ++ (e.text ++ rest)) = line :: splitLines rest := by
  induction line with
  | nil => cases e <;> rfl
  | cons c line ih =>
    obtain ⟨hc, hline⟩ := List.forall_mem_cons.mp h
    rw [List.cons_append, splitLines_cons hc, ih hline]

/-- A text without boundaries is one line, if there is something in it. -/
theorem splitLines_eq_singleton {line : Text} (h : ∀ c ∈ line, isLineBreak c = false) (hne : line ≠ []) :
    splitLines line = [line] := by
  induction line with
  | nil => exact absurd rfl hne
  | cons c line ih =>
    obtain ⟨hc, hline⟩ := List.forall_mem_cons.mp h
    rw [splitLines_cons hc]
    cases line with
    | nil => rfl
    | cons d line => rw [ih hline (List.cons_ne_nil d line)]

/-- The lines of rows come back from their text if and only if every row shows. -/
theorem splitLines_flatMap_render {rows : List Row} (hopen : OpenAtEnd rows) :
    splitLines (rows.flatMap Row.render) = rows.map Row.line ↔ ∀ row ∈ rows, row.Shows := by
  induction rows with
  | nil => exact iff_of_true rfl (by simp)
  | cons row rows ih =>
    -- A boundary inside a line keeps it from coming back, so only lines without one are compared.
    by_cases hline : ∀ c ∈ row.line, isLineBreak c = false
    · rw [List.forall_mem_cons, ← ih hopen.2, List.flatMap_cons, List.map_cons]
      cases hending : row.ending with
      | none =>
        obtain rfl := hopen.1 hending
        have hshows : row.Shows ↔ row.line ≠ [] := ⟨fun h => h.solid hending, fun h => ⟨hline, fun _ => h⟩⟩
        have hrender : row.render = row.line := by simp [Row.render, hending]
        by_cases hempty : row.line = []
        · simp [hshows, hrender, hempty, splitLines]
        · simp [hshows, hrender, hempty, splitLines_eq_singleton hline hempty, splitLines]
      | some e =>
        have hshows : row.Shows := ⟨hline, fun hnone => by simp [hending] at hnone⟩
        have hrender : row.render = row.line ++ e.text := by simp [Row.render, hending]
        rw [hrender, List.append_assoc, splitLines_append hline]
        simp [hshows]
    · refine iff_of_false (fun heq => hline ?_) fun hall => hline (hall row List.mem_cons_self).unbroken
      refine of_mem_splitLines (t := (row :: rows).flatMap Row.render) row.line ?_
      rw [heq]
      exact List.mem_cons_self

/-- The rows of new lines show if and only if no line holds a boundary, and the last one is not a blank line in a file
that ends without a line end. -/
theorem Buffer.shows_sourcedRows {b : Buffer} {lines : List Text} {sources : List (Option Nat)}
    (hlen : sources.length = lines.length) :
    (∀ row ∈ b.sourcedRows lines sources, row.Shows) ↔
      (∀ l ∈ lines, ∀ c ∈ l, isLineBreak c = false) ∧ (b.endsWithNewline = true ∨ lines.getLast? ≠ some []) := by
  have hrow {i : Nat} (hi : i < lines.length) := sourcedRows_getElem? (b := b) hlen (List.getElem?_eq_getElem hi)
    (List.getElem?_eq_getElem (hlen ▸ hi))
  constructor
  · intro h
    refine ⟨fun l hl => ?_, ?_⟩
    · rw [← map_line_sourcedRows (b := b) hlen] at hl
      obtain ⟨row, hmem, rfl⟩ := List.mem_map.mp hl
      exact (h row hmem).unbroken
    · by_contra hno
      obtain ⟨hkeep, hlast⟩ : b.endsWithNewline = false ∧ lines.getLast? = some [] := by simpa using hno
      rw [List.getLast?_eq_getElem?] at hlast
      have hi := (List.getElem?_eq_some_iff.mp hlast).1
      have hopen := (h _ (List.mem_of_getElem? (hrow hi))).solid
      rw [List.getElem?_eq_getElem hi, Option.some.injEq] at hlast
      have hend : ¬ (lines.length - 1 + 1 < lines.length) := by omega
      simp [hkeep, hend, hlast] at hopen
  · rintro ⟨hlines, hlast⟩ row hmem
    obtain ⟨i, hi⟩ := List.getElem?_of_mem hmem
    have hlt := (List.getElem?_eq_some_iff.mp hi).1
    rw [length_sourcedRows hlen] at hlt
    rw [hrow hlt] at hi
    obtain rfl := Option.some.inj hi
    refine ⟨hlines _ (List.getElem_mem hlt), fun hnone => ?_⟩
    simp only [ite_eq_right_iff, reduceCtorEq, imp_false, not_or, Bool.not_eq_true] at hnone
    have hend : lines.getLast? = some lines[i] := by
      rw [List.getLast?_eq_getElem?, ← List.getElem?_eq_getElem hlt]
      congr 1
      omega
    have hsolid := hlast.resolve_left (by simp [hnone.1])
    rw [hend] at hsolid
    exact fun hnil => hsolid (congrArg some hnil)

end Regraft

import Regraft.Proofs.Splice.Sources
import Mathlib.Algebra.Order.BigOperators.Group.List
/-!
# Planned lines

What an apply is about to write is planned as lines with their sources (`Matching.planned?`), and then written with line
ends (`Matching.applied?`). Both are told here for every scale of scores; on floating-point numbers, what is written is
the applied content (`toOption_appliedContent`).

* `applyVersion_mapSources`: which lines are planned does not depend on what their sources are called;
* `eq_of_lines_applyVersion`: a record that is spliced in changes the lines.
-/
namespace Regraft

section
variable {σ τ : Type} {tag : Tag}

/-! ## Sources under other names -/

/-- Lines with other names for their sources. -/
def Sourced.mapSources (g : Option σ → Option τ) (b : Sourced σ) : Sourced τ := ⟨b.lines, b.sources.map g⟩

theorem map_replaceSpan {α β : Type} (f : α → β) (xs new : List α) (start count : Nat) :
    (replaceSpan xs start count new).map f = replaceSpan (xs.map f) start count (new.map f) := by
  simp [replaceSpan]

variable {g : Option σ → Option τ}

theorem Record.map_renderedSources (hg : g none = none) (r : Record) (known : List (Option σ)) (count : Nat) :
    (r.renderedSources known count).map g = r.renderedSources (known.map g) count := by
  unfold renderedSources
  cases r.kind <;> cases r.style <;> simp [hg]

theorem spliceRecord_mapSources (hg : g none = none) (b : Sourced σ) (position : Nat) (r : Record) :
    spliceRecord tag (b.mapSources g) position r = (spliceRecord tag b position r).map (Sourced.mapSources g) := by
  obtain ⟨lines, sources⟩ := b
  change spliceRecord tag ⟨lines, sources.map g⟩ position r = _
  unfold spliceRecord
  cases r.render tag with
  | error e => rfl
  | ok rendered =>
    simp only [bind, Except.bind]
    by_cases habsent : r.extent ≠ 0 ∧ (lines.drop position).take r.extent ≠ r.stock
    · rw [if_pos habsent, if_pos habsent]
      rfl
    · rw [if_neg habsent, if_neg habsent]
      simp only [pure, Except.pure, Except.map, Sourced.mapSources, map_replaceSpan, r.map_renderedSources hg,
        List.map_take, List.map_drop]

/-- Splicing in a version plans the same lines, or fails in the same way, whatever the sources are called. -/
theorem applyVersion_mapSources (hg : g none = none) (b : Sourced σ) (placed : List (Int × Record)) :
    applyVersion tag (b.mapSources g) placed = (applyVersion tag b placed).map (Sourced.mapSources g) := by
  unfold applyVersion
  generalize spliceOrder placed = ns
  induction ns generalizing b with
  | nil => rfl
  | cons n ns ih =>
    have hplaced : splicePlaced tag (b.mapSources g) n.position n.record =
        (splicePlaced tag b n.position n.record).map (Sourced.mapSources g) := by
      simp only [splicePlaced, bind, Except.bind, Sourced.mapSources]
      cases placeIn b.lines n.position with
      | error e => rfl
      | ok position => exact spliceRecord_mapSources hg b position n.record
    rw [List.foldlM_cons, List.foldlM_cons, hplaced]
    cases splicePlaced tag b n.position n.record with
    | error e => rfl
    | ok b' => exact ih b'

/-! ## Lines that change -/

/-- The size of lines as they are written, with one character for each line end. -/
def weight (lines : List Text) : Nat := (lines.map fun l => l.length + 1).sum

@[simp] theorem weight_nil : weight [] = 0 := rfl

@[simp] theorem weight_cons (l : Text) (lines : List Text) : weight (l :: lines) = l.length + 1 + weight lines := rfl

@[simp] theorem weight_append (xs ys : List Text) : weight (xs ++ ys) = weight xs + weight ys := by
  simp [weight]

theorem length_commentOut (line : Text) : line.length ≤ (commentOut line).length := by
  have hline : (leadingIndent line ++ afterIndent line).length = line.length := by
    rw [leadingIndent, afterIndent, List.takeWhile_append_dropWhile]
  rw [List.length_append] at hline
  unfold commentOut
  split
  · rename_i hnil
    simp only [hnil, List.length_nil] at hline
    simp only [List.length_append, List.length_cons, List.length_nil]
    omega
  · simp only [List.length_append, List.length_cons]
    omega

theorem Record.weight_stock_le (r : Record) : weight r.stock ≤ weight r.commentedStock := by
  have hstock : r.stock = r.stock.zipIdx.map Prod.fst := by simp
  unfold commentedStock
  rw [weight, weight, List.map_map]
  conv_lhs => rw [hstock, List.map_map]
  refine List.sum_le_sum fun x _ => ?_
  simp only [Function.comp_apply]
  have := length_commentOut x.1
  split <;> omega

/-- A guard adds to the lines that it holds. -/
theorem weight_lt_guardLines {style : GuardStyle} {indent comment : Text} {lines out : List Text} {deletion : Bool}
    (h : guardLines tag style indent comment lines deletion = .ok out) : weight lines < weight out := by
  unfold guardLines at h
  split at h
  · obtain rfl := Except.ok.inj h
    simp only [List.cons_append, weight_cons, weight_append]
    omega
  · obtain rfl := Except.ok.inj h
    simp only [weight_cons, weight_nil, Tag.formatTrailing, List.length_append, List.length_cons]
    omega
  · obtain rfl := Except.ok.inj h
    simp only [weight_cons]
    omega
  · cases h

/-- A rendered record is larger than the lines that it takes out. -/
theorem Record.weight_lt_render {r : Record} {rendered : List Text} (h : r.render tag = .ok rendered) :
    0 < weight rendered ∧ (r.kind = .deletion → weight r.stock < weight rendered) := by
  cases hkind : r.kind with
  | addition =>
    simp only [render, hkind] at h
    exact ⟨Nat.zero_lt_of_lt (weight_lt_guardLines h), by simp⟩
  | deletion =>
    obtain ⟨deleted, inserted, hdeleted, rfl, -⟩ := exists_of_render hkind h
    have hlt := r.weight_stock_le.trans_lt (weight_lt_guardLines hdeleted)
    rw [weight_append]
    exact ⟨by omega, fun _ => by omega⟩

theorem weight_lt_spliceRecord {b b' : Sourced σ} {position : Nat} {r : Record}
    (h : spliceRecord tag b position r = .ok b') : weight b.lines < weight b'.lines := by
  obtain ⟨rendered, hrendered, hstock, rfl⟩ := spliceRecord_eq_ok h
  obtain ⟨hpos, hlt⟩ := Record.weight_lt_render hrendered
  have hextent : weight ((b.lines.drop position).take r.extent) < weight rendered := by
    by_cases hnone : r.extent = 0
    · rwa [hnone, List.take_zero, weight_nil]
    · rw [hstock hnone]
      refine hlt ?_
      cases hkind : r.kind with
      | addition => simp [Record.extent, hkind] at hnone
      | deletion => rfl
  have hsplit : b.lines =
      b.lines.take position ++ ((b.lines.drop position).take r.extent ++ b.lines.drop (position + r.extent)) := by
    rw [← List.drop_drop, List.take_append_drop, List.take_append_drop]
  have hweight := congrArg weight hsplit
  simp only [weight_append] at hweight
  simp only [replaceSpan, weight_append]
  omega

/-- A version that leaves the lines as they are has no records to splice in. -/
theorem eq_of_lines_applyVersion {b b' : Sourced σ} {placed : List (Int × Record)}
    (h : applyVersion tag b placed = .ok b') (hlines : b'.lines = b.lines) : b' = b := by
  have hgrown : b' = b ∨ weight b.lines < weight b'.lines := by
    refine applyVersion_induct (P := fun c => c = b ∨ weight b.lines < weight c.lines)
      (fun x _ c c' position hc hsplice => ?_) (.inl rfl) h
    have hlt := weight_lt_spliceRecord hsplice
    rcases hc with rfl | hc
    · exact .inr hlt
    · exact .inr (hc.trans hlt)
  rcases hgrown with heq | hlt
  · exact heq
  · rw [hlines] at hlt
    exact absurd hlt (lt_irrefl _)

end

/-! ## Plans -/

namespace Matching

variable {α : Type} [Scale α]

/-- The lines that the selected version leaves of a content, and its order: the stock lines of the content with the
version spliced in. There are none if the guards cannot be made out, or no version is selected, or it does not fit. -/
def planned? (m : Matching α) (tag : Tag) (versions : VersionSet) (before : Text) : Option (Sourced Nat × Int) := do
  let stock ← (clearLines tag (Buffer.ofText before).lines).toOption
  let selected ← (m.select stock.lines versions []).toOption
  let places := selected.placed.map fun p => ((p.position : Int), p.record)
  let patched ← (applyVersion tag stock places).toOption
  return (patched, selected.version.order)

/-- The content with the planned lines, and the order of the version. -/
def applied? (m : Matching α) (tag : Tag) (versions : VersionSet) (before : Text) : Option (Text × Int) := do
  let (patched, order) ← m.planned? tag versions before
  return (← (contentWith before (Buffer.ofText before) patched).toOption, order)

theorem toOption_select_retarget (m : Matching α) (lines : List Text) (versions : VersionSet) (target other : Text) :
    (m.select lines versions target).toOption = (m.select lines versions other).toOption := by
  cases h : m.select lines versions target with
  | ok selected => rw [select_retarget h other]
  | error fault =>
    cases h' : m.select lines versions other with
    | ok selected =>
      rw [select_retarget h' target] at h
      cases h
    | error fault => rfl

end Matching

/-- On floating-point numbers, the content with the planned lines is the applied one. -/
theorem toOption_appliedContent (tag : Tag) (m : Matching Float) (versions : VersionSet) (before : Text) :
    (appliedContent tag m versions before).toOption = m.applied? tag versions before := by
  simp only [appliedContent, Matching.applied?, Matching.planned?]
  cases hclear : clearLines tag (Buffer.ofText before).lines with
  | error e => rfl
  | ok stock =>
    have hwithin := (within_clearLines hclear).1
    rw [Buffer.lines, List.length_map] at hwithin
    simp only [Except.mapError, bind, Except.bind, Except.toOption, Option.bind_some,
      Buffer.withLines_eq hwithin.length hwithin.sources]
    generalize Buffer.render _ = target
    have hselect := m.toOption_select_retarget stock.lines versions target []
    cases h : m.select stock.lines versions target with
    | error fault =>
      rw [h] at hselect
      simp only [Except.toOption] at hselect
      rw [← hselect]
      rfl
    | ok selected =>
      rw [h] at hselect
      simp only [Except.toOption] at hselect
      rw [← hselect]
      simp only [Option.bind_some]
      cases applyVersion tag stock (selected.placed.map fun p => ((p.position : Int), p.record)) with
      | error e => rfl
      | ok patched =>
        simp only [pure, Option.bind_some]
        cases contentWith before (Buffer.ofText before) patched <;> rfl

end Regraft

import Regraft.Guard.Segment
import Regraft.Proofs.Guard.Mentions
/-!
# Layouts

A layout lists what a reader of guard comments sees in a file: lines without a guard, and guards with the lines
that they hold. It is where the reader and the writer meet.

* `stands_written`: a guard that fits is read back from the lines that are written for it;
* `Reads.scan`: the segments of lines that read as a layout are those of the layout.
-/
namespace Regraft

/-- Guarded lines, apart from their place in a file. -/
structure Guard where
  style : GuardStyle
  deletion : Bool
  comment : Text
  indent : Text
  lines : List Text
  deriving DecidableEq, Repr

namespace Guard

/-- The stock lines that a guard takes out. -/
def stock (g : Guard) : List Text := if g.deletion then g.lines.map Segment.restore else []

/-- The number of lines that a guard takes in a file. -/
def height (g : Guard) : Nat :=
  match g.style with
  | .block => g.lines.length + 2
  | .singleLine => g.lines.length
  | .nextLine => g.lines.length + 1

/-- The lines of a guard as they are written. -/
def written (tag : Tag) (g : Guard) : List Text :=
  match g.style with
  | .block => tag.formatBegin g.indent g.comment g.deletion :: (g.lines ++ [tag.formatEnd g.indent])
  | .singleLine => g.lines.map fun line => tag.formatTrailing line g.comment g.deletion
  | .nextLine => tag.formatMarker g.indent g.comment g.deletion :: g.lines

/-- The guard at a place of a file. -/
def guarded (g : Guard) (start : Nat) : Guarded :=
  ⟨g.style, start, start + g.height, g.lines, g.comment, g.indent⟩

/-- The segment that a guard makes at a place of a file. -/
def segment (g : Guard) (start : Nat) : Segment :=
  if g.deletion then .deletion (g.guarded start) (g.lines.map Segment.restore) (Segment.blankOffsets g.lines) none
  else .addition (g.guarded start)

/-- A guard that is read back when it is written. -/
structure Fits (tag : Tag) (g : Guard) : Prop where
  comment : NoteFits g.deletion g.comment
  indent : allBlank g.indent = true
  oneLine : OneLine g.indent ∧ ∀ l ∈ g.lines, OneLine l
  restorable : g.deletion = true → ∀ l ∈ g.lines, allBlank l = true ∨ (uncomment? l).isSome = true
  styled : match g.style with
    | .block => ∀ l ∈ g.lines, tag.mentions l = false
    | .singleLine => g.indent = [] ∧ ∃ code, g.lines = [code] ∧ EndsSolid code ∧ tag.Plain code
    | .nextLine =>
      Unclosed g.comment ∧ ∃ line, g.lines = [line] ∧ allBlank line = false ∧ tag.mentions line = false

/-- All characters of a guard satisfy a property. -/
structure Over (q : CodePoint → Prop) (g : Guard) : Prop where
  comment : ∀ c ∈ g.comment, q c
  indent : ∀ c ∈ g.indent, q c
  lines : ∀ l ∈ g.lines, ∀ c ∈ l, q c

theorem length_written (tag : Tag) (g : Guard) : (g.written tag).length = g.height := by
  unfold written height
  split <;> simp

theorem segment_start (g : Guard) (i : Nat) : (g.segment i).start = i := by
  unfold segment
  split <;> rfl

theorem segment_stop (g : Guard) (i : Nat) : (g.segment i).stop = i + g.height := by
  unfold segment
  split <;> rfl

theorem segment_stock (g : Guard) (i : Nat) : (g.segment i).stock = g.stock := by
  unfold segment stock
  split <;> rfl

end Guard

/-! ## Reading one guard -/

/-- Lines that are read as one guard wherever they stand. -/
structure Stands (tag : Tag) (g : Guard) (lines : List Text) : Prop where
  length : lines.length = g.height
  scan : ∀ i rest, Segment.scan tag i .nothing (lines ++ rest) =
    (Segment.scan tag (i + g.height) .nothing rest).map (g.segment i :: ·)

section
variable {tag : Tag}

/-- A line that may stand between the Begin and the End of a block. -/
def Tag.Inner (tag : Tag) (deletion : Bool) (line : Text) : Prop :=
  tag.mentions line = false ∧ (deletion = true → allBlank line = true ∨ (uncomment? line).isSome = true)

theorem bind_cons_eq_map {ε σ : Type} (x : Except ε (List σ)) (s : σ) :
    (x >>= fun rest => pure (s :: rest)) = x.map (s :: ·) := by
  cases x <;> rfl

/-- One step of the scan outside a guard. -/
theorem scan_nothing_cons (tag : Tag) (i : Nat) (line : Text) (rest : List Text) :
    Segment.scan tag i .nothing (line :: rest) =
      match tag.classify line with
      | .ending => .error ⟨i + 1, .endWithoutBegin⟩
      | .beginning guard => Segment.scan tag (i + 1) (.block i guard []) rest
      | .marker guard => Segment.scan tag (i + 1) (.line guard) rest
      | .trailing guard => do
        let segment ← Segment.ofTrailing i guard
        return segment :: (← Segment.scan tag (i + 1) .nothing rest)
      | .plain => Segment.scan tag (i + 1) .nothing rest := rfl

/-- A guard that is read takes up a line. -/
theorem Stands.height_pos {g : Guard} {lines : List Text} (h : Stands tag g lines) : 0 < g.height := by
  refine Nat.pos_of_ne_zero fun hzero => ?_
  obtain rfl : lines = [] := List.eq_nil_of_length_eq_zero (h.length.trans hzero)
  have hscan := h.scan 0 []
  cases hscan

/-- One more line of a block. -/
theorem scan_block_inner {i start : Nat} {guard : Opening} {body rest : List Text} {line : Text}
    (h : tag.Inner guard.deletion line) :
    Segment.scan tag i (.block start guard body) (line :: rest) =
      Segment.scan tag (i + 1) (.block start guard (line :: body)) rest := by
  have hhead := Tag.unmarked_of_not_mentions h.1
  have hend : tag.isEnd line = false := by simp [Tag.isEnd, hhead]
  have hbegin : tag.begin? line = none := by simp [Tag.begin?, hhead]
  have hcode : (guard.deletion && !allBlank line && (uncomment? line).isNone) = false := by
    cases hd : guard.deletion with
    | false => rfl
    | true =>
      rcases h.2 hd with hb | hu
      · simp [hb]
      · simp [Option.isNone_eq_false_iff.mpr hu]
  simp [Segment.scan, hend, hbegin, h.1, hcode]

theorem scan_block {guard : Opening} {last : Text} (hend : tag.isEnd last = true) (more rest : List Text) :
    ∀ {i start : Nat} {body : List Text}, (∀ l ∈ more, tag.Inner guard.deletion l) →
      Segment.scan tag i (.block start guard body) (more ++ last :: rest) =
        (Segment.scan tag (i + more.length + 1) .nothing rest).map
          (Segment.ofBlock start (i + more.length + 1) guard (body.reverse ++ more) :: ·) := by
  induction more with
  | nil =>
    intro i start body _
    simp only [List.nil_append, Segment.scan, hend, if_true, List.append_nil]
    exact bind_cons_eq_map _ _
  | cons line more ih =>
    intro i start body h
    rw [List.cons_append, scan_block_inner (h line List.mem_cons_self),
      ih fun l hl => h l (List.mem_cons_of_mem _ hl)]
    simp [Nat.add_assoc, Nat.add_comm 1]

theorem stands_block {first last : Text} {guard : Opening} {lines : List Text}
    (hfirst : tag.classify first = .beginning guard) (hlines : ∀ l ∈ lines, tag.Inner guard.deletion l)
    (hlast : tag.isEnd last = true) :
    Stands tag ⟨.block, guard.deletion, guard.comment, guard.indent, lines⟩ (first :: (lines ++ [last])) := by
  refine ⟨by simp [Guard.height], fun i rest => ?_⟩
  have hstop : i + 1 + lines.length + 1 = i + (lines.length + 2) := by omega
  rw [List.cons_append, List.append_assoc, List.singleton_append]
  simp only [scan_nothing_cons, hfirst]
  rw [scan_block hlast lines rest hlines, hstop]
  simp [Guard.height, Guard.segment, Guard.guarded, Segment.ofBlock]

theorem restore_of_uncomment? {line stock : Text} (hb : allBlank line = false) (h : uncomment? line = some stock) :
    Segment.restore line = stock := by
  simp [Segment.restore, hb, h]

theorem blankOffsets_singleton {line : Text} (hb : allBlank line = false) : Segment.blankOffsets [line] = [] := by
  simp [Segment.blankOffsets, List.range_succ, hb]

theorem stands_nextLine {first line : Text} {guard : Opening} (hfirst : tag.classify first = .marker guard)
    (hb : allBlank line = false) (hm : tag.mentions line = false)
    (hu : guard.deletion = true → (uncomment? line).isSome = true) :
    Stands tag ⟨.nextLine, guard.deletion, guard.comment, guard.indent, [line]⟩ [first, line] := by
  refine ⟨rfl, fun i rest => ?_⟩
  have hsegment : Segment.ofNextLine (i + 1) guard line =
      .ok (Guard.segment ⟨.nextLine, guard.deletion, guard.comment, guard.indent, [line]⟩ i) := by
    cases hd : guard.deletion with
    | false => simp [Segment.ofNextLine, Guard.segment, Guard.guarded, Guard.height, hd]
    | true =>
      obtain ⟨stock, hs⟩ := Option.isSome_iff_exists.mp (hu hd)
      simp [Segment.ofNextLine, Guard.segment, Guard.guarded, Guard.height, hd, hs,
        restore_of_uncomment? hb hs, blankOffsets_singleton hb]
  simp only [List.cons_append, List.nil_append, Segment.scan, hfirst, hb, hm, Bool.or_self, hsegment]
  exact bind_cons_eq_map _ _

theorem stands_singleLine {line : Text} {guard : Trailing} (hline : tag.classify line = .trailing guard)
    (hb : allBlank guard.code = false) (hu : guard.deletion = true → (uncomment? guard.code).isSome = true) :
    Stands tag ⟨.singleLine, guard.deletion, guard.comment, [], [guard.code]⟩ [line] := by
  refine ⟨rfl, fun i rest => ?_⟩
  have hsegment : Segment.ofTrailing i guard =
      .ok (Guard.segment ⟨.singleLine, guard.deletion, guard.comment, [], [guard.code]⟩ i) := by
    cases hd : guard.deletion with
    | false => simp [Segment.ofTrailing, Guard.segment, Guard.guarded, Guard.height, hd]
    | true =>
      obtain ⟨stock, hs⟩ := Option.isSome_iff_exists.mp (hu hd)
      simp [Segment.ofTrailing, Guard.segment, Guard.guarded, Guard.height, hd, hs,
        restore_of_uncomment? hb hs, blankOffsets_singleton hb]
  simp only [List.cons_append, List.nil_append, scan_nothing_cons, hline, hsegment]
  exact bind_cons_eq_map _ _

/-- A guard that fits is read back from its lines. -/
theorem stands_written (hid : tag.IsIdentifier) {g : Guard} (h : g.Fits tag) : Stands tag g (g.written tag) := by
  obtain ⟨style, deletion, comment, indent, lines⟩ := g
  have hstyled := h.styled
  cases style with
  | block =>
    exact stands_block (Tag.classify_formatBegin hid h.indent h.comment)
      (fun l hl => ⟨hstyled l hl, fun hd => h.restorable hd l hl⟩) (Tag.isEnd_formatEnd hid h.indent)
  | singleLine =>
    obtain ⟨rfl, code, rfl, hsolid, hplain⟩ := hstyled
    have hcode := h.oneLine.2 code List.mem_cons_self
    have hb := not_allBlank_of_endsSolid hsolid
    refine @stands_singleLine tag _ ⟨code, deletion, comment⟩
      (Tag.classify_formatTrailing hid hcode hsolid hplain h.comment) hb fun hd => ?_
    exact (h.restorable hd code List.mem_cons_self).resolve_left (by simp [hb])
  | nextLine =>
    obtain ⟨hopen, line, rfl, hb, hm⟩ := hstyled
    refine stands_nextLine (Tag.classify_formatMarker hid h.indent h.comment hopen) hb hm fun hd => ?_
    exact (h.restorable hd line List.mem_cons_self).resolve_left (by simp [hb])

end

/-! ## Layouts -/

/-- A piece of a file: a line without a guard, or a guard. -/
inductive Piece where
  | line (text : Text)
  | guard (g : Guard)
  deriving DecidableEq, Repr

namespace Piece

/-- The number of lines of a piece. -/
def height : Piece → Nat
  | line _ => 1
  | guard g => g.height

/-- The lines of a piece as they are written. -/
def written (tag : Tag) : Piece → List Text
  | line t => [t]
  | guard g => g.written tag

/-- The stock lines of a piece. -/
def stock : Piece → List Text
  | line t => [t]
  | guard g => g.stock

/-- A piece that is read back when it is written. -/
def Fits (tag : Tag) : Piece → Prop
  | line t => OneLine t ∧ tag.Plain t
  | guard g => g.Fits tag

/-- All characters of the guard satisfy a property. -/
def GuardOver (q : CodePoint → Prop) : Piece → Prop
  | line _ => True
  | guard g => g.Over q

end Piece

/-- What a reader sees in a file, from the first line to the last. -/
abbrev Layout := List Piece

namespace Layout

/-- The number of lines of a layout. -/
def height : Layout → Nat
  | [] => 0
  | p :: rest => p.height + height rest

theorem height_cons (p : Piece) (layout : Layout) : height (p :: layout) = p.height + height layout := rfl

/-- The segments of a layout whose first line has this number. -/
def segmentsFrom : Nat → Layout → List Segment
  | _, [] => []
  | i, .line _ :: rest => segmentsFrom (i + 1) rest
  | i, .guard g :: rest => g.segment i :: segmentsFrom (i + g.height) rest

/-- The lines of a layout as they are written. -/
def written (tag : Tag) (layout : Layout) : List Text := layout.flatMap (Piece.written tag)

/-- The stock lines of a layout. -/
def stock (layout : Layout) : List Text := layout.flatMap Piece.stock

end Layout

/-- Lines that are read as a layout. -/
inductive Reads (tag : Tag) : List Text → Layout → Prop
  | nil : Reads tag [] []
  | line {t : Text} {ts : List Text} {layout : Layout} (ht : tag.classify t = .plain)
      (hts : Reads tag ts layout) : Reads tag (t :: ts) (.line t :: layout)
  | guard {g : Guard} {ls ts : List Text} {layout : Layout} (hg : Stands tag g ls)
      (hts : Reads tag ts layout) : Reads tag (ls ++ ts) (.guard g :: layout)

section
variable {tag : Tag}

theorem Reads.length {lines : List Text} {layout : Layout} (h : Reads tag lines layout) :
    lines.length = layout.height := by
  induction h with
  | nil => rfl
  | line ht hts ih => simp [Layout.height_cons, Piece.height, ih, Nat.add_comm]
  | guard hg hts ih => simp [Layout.height_cons, Piece.height, ih, hg.length]

theorem reads_guards {guards : List Guard} (h : ∀ g ∈ guards, Stands tag g (g.written tag)) {lines : List Text}
    {layout : Layout} (hrest : Reads tag lines layout) :
    Reads tag (guards.flatMap (Guard.written tag) ++ lines) (guards.map .guard ++ layout) := by
  induction guards with
  | nil => exact hrest
  | cons g guards ih =>
    obtain ⟨hg, hguards⟩ := List.forall_mem_cons.mp h
    rw [List.flatMap_cons, List.append_assoc]
    exact .guard hg (ih hguards)

/-- The reader finds the segments of the layout. -/
theorem Reads.scan {lines : List Text} {layout : Layout} (h : Reads tag lines layout) :
    ∀ i, Segment.scan tag i .nothing lines = .ok (layout.segmentsFrom i) := by
  induction h with
  | nil => intro i; rfl
  | line ht hts ih =>
    intro i
    simp only [scan_nothing_cons, ht, Layout.segmentsFrom, ih]
  | guard hg hts ih =>
    intro i
    rw [hg.scan, ih]
    rfl

/-- A layout that fits is read back from its lines. -/
theorem reads_written (hid : tag.IsIdentifier) {layout : Layout} (h : ∀ p ∈ layout, p.Fits tag) :
    Reads tag (layout.written tag) layout := by
  induction layout with
  | nil => exact .nil
  | cons p layout ih =>
    have hrest := ih fun p hp => h p (List.mem_cons_of_mem _ hp)
    have hp := h p List.mem_cons_self
    cases p with
    | line t => exact .line ((Tag.classify_eq_plain hp.1).mpr hp.2) hrest
    | guard g => exact .guard (stands_written hid hp) hrest

/-- A block that is read to its end has one. -/
theorem exists_of_scan_block {guard : Opening} {lines : List Text} :
    ∀ {i start : Nat} {body : List Text} {segments : List Segment},
      Segment.scan tag i (.block start guard body) lines = .ok segments →
      ∃ more last rest, lines = more ++ last :: rest ∧ tag.isEnd last = true ∧
        ∀ l ∈ more, tag.Inner guard.deletion l := by
  induction lines with
  | nil =>
    intro i start body segments h
    simp [Segment.scan] at h
  | cons line rest ih =>
    intro i start body segments h
    simp only [Segment.scan] at h
    split at h
    · rename_i hend
      exact ⟨[], line, rest, rfl, hend, by simp⟩
    split at h
    · cases h
    split at h
    · cases h
    split at h
    · cases h
    · rename_i hm hcode
      obtain ⟨more, last, rest, rfl, hend, hmore⟩ := ih h
      refine ⟨line :: more, last, rest, rfl, hend, ?_⟩
      intro l hl
      rcases List.mem_cons.mp hl with rfl | hl
      · refine ⟨by simpa using hm, fun hd => ?_⟩
        cases hb : allBlank l with
        | true => exact .inl rfl
        | false =>
          right
          simpa [hd, hb, Option.isSome_iff_ne_none] using hcode
      · exact hmore l hl

end

end Regraft

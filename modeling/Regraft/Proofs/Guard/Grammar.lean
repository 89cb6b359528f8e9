import Regraft.Proofs.Guard.Pairing
/-!
# The grammar of guarded files

A file is a sequence of stretches: lines without a guard, lines with a trailing guard, blocks from a Begin to an
End, and markers with the line that they guard. The reader of segments is held against this description, which
knows nothing of what the reader waits for while it goes through the lines.

* `exists_splits`: lines that are read without a fault split into sound stretches;
* `Splits.unique`: there is one way to split lines;
* `Splits.reads`: what is read is the layout of the stretches;
* `parse_grammar`: all of it, with the segments and the lines that they cover.
-/
namespace Regraft

/-- Lines that belong together in a file, with what the comments among them say. -/
inductive Stretch where
  | plain (line : Text)
  | trailing (line : Text) (guard : Trailing)
  | block (first : Text) (guard : Opening) (body : List Text) (last : Text)
  | nextLine (first : Text) (guard : Opening) (line : Text)
  deriving DecidableEq, Repr

namespace Stretch

/-- The lines of a stretch, with the guard comments. -/
def lines : Stretch → List Text
  | plain line => [line]
  | trailing line _ => [line]
  | block first _ body last => first :: (body ++ [last])
  | nextLine first _ line => [first, line]

/-- What a reader sees in a stretch. -/
def piece : Stretch → Piece
  | plain line => .line line
  | trailing _ guard => .guard ⟨.singleLine, guard.deletion, guard.comment, [], [guard.code]⟩
  | block _ guard body _ => .guard ⟨.block, guard.deletion, guard.comment, guard.indent, body⟩
  | nextLine _ guard line => .guard ⟨.nextLine, guard.deletion, guard.comment, guard.indent, [line]⟩

/-- The stretch has a guard. -/
def isGuarded : Stretch → Bool
  | plain _ => false
  | _ => true

/-- The lines have the forms that the stretch asks for. -/
def Sound (tag : Tag) : Stretch → Prop
  | plain line => tag.classify line = .plain
  | trailing line guard =>
    tag.classify line = .trailing guard ∧ (guard.deletion = true → (uncomment? guard.code).isSome = true)
  | block first guard body last =>
    tag.classify first = .beginning guard ∧ tag.classify last = .ending ∧ ∀ l ∈ body, tag.Inner guard.deletion l
  | nextLine first guard line =>
    tag.classify first = .marker guard ∧ allBlank line = false ∧ tag.mentions line = false ∧
      (guard.deletion = true → (uncomment? line).isSome = true)

theorem lines_ne_nil (s : Stretch) : s.lines ≠ [] := by
  cases s <;> exact List.cons_ne_nil _ _

theorem length_lines (s : Stretch) : s.lines.length = s.piece.height := by
  cases s <;> simp [lines, piece, Piece.height, Guard.height]

theorem height_pos (s : Stretch) : 0 < s.piece.height := by
  rw [← s.length_lines]
  exact List.length_pos_iff.mpr s.lines_ne_nil

end Stretch

/-- A way to split the lines of a file into sound stretches. -/
structure Splits (tag : Tag) (lines : List Text) (split : List Stretch) : Prop where
  lines : split.flatMap Stretch.lines = lines
  sound : ∀ s ∈ split, s.Sound tag

section
variable {tag : Tag}

theorem Splits.nil : Splits tag [] [] := ⟨rfl, by simp⟩

theorem Splits.cons {s : Stretch} {split : List Stretch} {rest : List Text} (hs : s.Sound tag)
    (h : Splits tag rest split) : Splits tag (s.lines ++ rest) (s :: split) :=
  ⟨by rw [List.flatMap_cons, h.lines], List.forall_mem_cons.mpr ⟨hs, h.sound⟩⟩

theorem Splits.of_cons {s : Stretch} {split : List Stretch} {lines : List Text} (h : Splits tag lines (s :: split)) :
    ∃ rest, lines = s.lines ++ rest ∧ s.Sound tag ∧ Splits tag rest split := by
  obtain ⟨hs, hsplit⟩ := List.forall_mem_cons.mp h.sound
  exact ⟨_, h.lines.symm.trans List.flatMap_cons, hs, rfl, hsplit⟩

theorem Splits.of_append {lines : List Text} {front back : List Stretch} (h : Splits tag lines (front ++ back)) :
    ∃ a b, lines = a ++ b ∧ Splits tag a front ∧ Splits tag b back := by
  obtain ⟨hfront, hback⟩ := List.forall_mem_append.mp h.sound
  exact ⟨_, _, by rw [← h.lines, List.flatMap_append], ⟨rfl, hfront⟩, ⟨rfl, hback⟩⟩

/-! ## Forms of single lines -/

theorem Tag.classify_eq_ending {line : Text} : tag.classify line = .ending ↔ tag.isEnd line = true := by
  constructor
  · exact Tag.isReadBy_of_classify
  · intro h
    rw [Tag.classify, if_pos h]

theorem Tag.trailing?_of_classify {line : Text} {guard : Trailing} (h : tag.classify line = .trailing guard) :
    tag.trailing? line = some guard := (Tag.isReadBy_of_classify h).2.2.2

/-- The code in front of a trailing guard is not blank. -/
theorem Tag.not_allBlank_code {line : Text} {guard : Trailing} (h : tag.trailing? line = some guard) :
    allBlank guard.code = false := by
  induction line generalizing guard with
  | nil => cases h
  | cons c cs ih =>
    simp only [Tag.trailing?_eq] at h
    split at h
    · rename_i hhere
      obtain rfl := Option.some.inj h
      cases hc : isBlank c with
      | true => simp [hc] at hhere
      | false => simp [allBlank, hc]
    · split at h
      · cases h
      · obtain ⟨found, hfound, rfl⟩ := Option.map_eq_some_iff.mp h
        have hcode := ih hfound
        rw [allBlank] at hcode
        simp [allBlank, hcode]

/-! ## What is read in stretches -/

/-- A stretch is a plain line, or its lines are read as its guard wherever they stand. -/
theorem Stretch.plain_or_stands {s : Stretch} (h : s.Sound tag) :
    (∃ line, s = .plain line ∧ tag.classify line = .plain) ∨ ∃ g, s.piece = .guard g ∧ Stands tag g s.lines := by
  cases s with
  | plain line => exact .inl ⟨line, rfl, h⟩
  | trailing line guard =>
    have hcode := Tag.not_allBlank_code (Tag.trailing?_of_classify h.1)
    exact .inr ⟨_, rfl, stands_singleLine h.1 hcode h.2⟩
  | block first guard body last =>
    exact .inr ⟨_, rfl, stands_block h.1 h.2.2 (Tag.classify_eq_ending.mp h.2.1)⟩
  | nextLine first guard line => exact .inr ⟨_, rfl, stands_nextLine h.1 h.2.1 h.2.2.1 h.2.2.2⟩

theorem Stretch.reads {s : Stretch} (h : s.Sound tag) {rest : List Text} {layout : Layout}
    (hrest : Reads tag rest layout) : Reads tag (s.lines ++ rest) (s.piece :: layout) := by
  rcases s.plain_or_stands h with ⟨line, rfl, hline⟩ | ⟨g, hg, hstands⟩
  · exact .line hline hrest
  · exact hg ▸ .guard hstands hrest

/-- What stands behind a stretch is read without a fault if all is. -/
theorem Stretch.scan_behind {s : Stretch} (h : s.Sound tag) {i : Nat} {rest : List Text} {segments : List Segment}
    (hscan : Segment.scan tag i .nothing (s.lines ++ rest) = .ok segments) :
    ∃ j found, Segment.scan tag j .nothing rest = .ok found := by
  rcases s.plain_or_stands h with ⟨line, rfl, hline⟩ | ⟨g, -, hstands⟩
  · exact ⟨i + 1, segments, by simpa [Stretch.lines, scan_nothing_cons, hline] using hscan⟩
  · rw [hstands.scan] at hscan
    cases hrest : Segment.scan tag (i + g.height) .nothing rest with
    | ok found => exact ⟨_, found, hrest⟩
    | error e =>
      rw [hrest] at hscan
      cases hscan

theorem Splits.reads_append {a lines : List Text} {front : List Stretch} {layout : Layout} (h : Splits tag a front)
    (hrest : Reads tag lines layout) : Reads tag (a ++ lines) (front.map Stretch.piece ++ layout) := by
  induction front generalizing a with
  | nil =>
    obtain rfl : [] = a := h.lines
    exact hrest
  | cons s front ih =>
    obtain ⟨rest, rfl, hs, hsplit⟩ := h.of_cons
    rw [List.append_assoc]
    exact s.reads hs (ih hsplit)

/-- Lines are read as the layout of the stretches into which they split. -/
theorem Splits.reads {lines : List Text} {split : List Stretch} (h : Splits tag lines split) :
    Reads tag lines (split.map Stretch.piece) := by
  simpa using h.reads_append .nil

/-! ## Lines that are read split -/

/-- Lines that are read without a fault begin with a sound stretch. -/
theorem exists_stretch {line : Text} {rest : List Text} {i : Nat} {segments : List Segment}
    (h : Segment.scan tag i .nothing (line :: rest) = .ok segments) :
    ∃ s ts, line :: rest = Stretch.lines s ++ ts ∧ s.Sound tag := by
  simp only [scan_nothing_cons] at h
  cases hform : tag.classify line with
  | ending => simp [hform] at h
  | plain => exact ⟨.plain line, rest, rfl, hform⟩
  | trailing guard =>
    simp only [hform] at h
    refine ⟨.trailing line guard, rest, rfl, hform, fun hd => ?_⟩
    cases hu : uncomment? guard.code with
    | some stock => rfl
    | none => simp [Segment.ofTrailing, hd, hu, bind, Except.bind] at h
  | marker guard =>
    simp only [hform] at h
    cases rest with
    | nil => simp [Segment.scan] at h
    | cons next rest =>
      simp only [Segment.scan] at h
      split at h
      · cases h
      rename_i hnext
      simp only [Bool.or_eq_true, not_or, Bool.not_eq_true] at hnext
      refine ⟨.nextLine line guard next, rest, rfl, hform, hnext.1, hnext.2, fun hd => ?_⟩
      cases hu : uncomment? next with
      | some stock => rfl
      | none => simp [Segment.ofNextLine, hd, hu, bind, Except.bind] at h
  | beginning guard =>
    simp only [hform] at h
    obtain ⟨body, last, rest, rfl, hend, hbody⟩ := exists_of_scan_block h
    exact ⟨.block line guard body last, rest, by simp [Stretch.lines], hform, Tag.classify_eq_ending.mpr hend, hbody⟩

/-- Lines that are read without a fault split into sound stretches. -/
theorem exists_splits (lines : List Text) {i : Nat} {segments : List Segment}
    (h : Segment.scan tag i .nothing lines = .ok segments) : ∃ split, Splits tag lines split := by
  induction hn : lines.length using Nat.strong_induction_on generalizing lines i segments with
  | _ n ih =>
    subst hn
    cases lines with
    | nil => exact ⟨[], .nil⟩
    | cons line rest =>
      obtain ⟨s, ts, heq, hs⟩ := exists_stretch h
      have hlt : ts.length < (line :: rest).length := by
        have hpos := List.length_pos_iff.mpr s.lines_ne_nil
        rw [heq, List.length_append]
        omega
      obtain ⟨j, found, hscan⟩ := s.scan_behind hs (heq ▸ h)
      obtain ⟨split, hsplit⟩ := ih ts.length hlt ts hscan rfl
      exact ⟨s :: split, heq ▸ hsplit.cons hs⟩

theorem exists_splits_of_parse {lines : List Text} {segments : List Segment}
    (h : Segment.parse tag lines = .ok segments) : ∃ split, Splits tag lines split := by
  unfold Segment.parse at h
  cases hscan : Segment.scan tag 0 .nothing lines with
  | ok found => exact exists_splits lines hscan
  | error e =>
    rw [hscan] at h
    cases h

/-- The segments of lines that split are those of the stretches. -/
theorem Splits.parse {lines : List Text} {split : List Stretch} (h : Splits tag lines split) :
    Segment.parse tag lines = .ok (Layout.pairedFrom 0 (split.map Stretch.piece)) := by
  rw [Segment.parse, h.reads.scan 0, Except.map, Layout.pairReplacements_segmentsFrom]

/-- The segments of a file stand one behind the other within it, each with its stock. -/
theorem spread_of_parse {lines : List Text} {segments : List Segment} (h : Segment.parse tag lines = .ok segments) :
    Spread lines.length 0 segments ∧ ∀ s ∈ segments, s.IsTight := by
  obtain ⟨split, hsplit⟩ := exists_splits_of_parse h
  obtain rfl := Except.ok.inj (hsplit.parse.symm.trans h)
  have hspread := Layout.spread_pairedFrom 0 (split.map Stretch.piece) le_rfl
  rw [Nat.zero_add, ← hsplit.reads.length] at hspread
  exact ⟨hspread, Layout.tight_pairedFrom 0 _⟩

/-! ## One way to split -/

/-- The line that a stretch begins with. -/
def Stretch.first : Stretch → Text
  | plain line => line
  | trailing line _ => line
  | block first .. => first
  | nextLine first .. => first

/-- The form of the line that a stretch begins with. -/
def Stretch.form : Stretch → LineForm
  | plain _ => .plain
  | trailing _ guard => .trailing guard
  | block _ guard .. => .beginning guard
  | nextLine _ guard _ => .marker guard

theorem Stretch.classify_first {s : Stretch} (h : s.Sound tag) : tag.classify s.first = s.form := by
  cases s with
  | plain line => exact h
  | trailing line guard => exact h.1
  | block first guard body last => exact h.1
  | nextLine first guard line => exact h.1

theorem Stretch.head?_lines (s : Stretch) (rest : List Text) : (s.lines ++ rest).head? = some s.first := by
  cases s <;> rfl

/-- Lines without a guard are stretches of their own. -/
theorem Splits.exists_behind_plain {stock : List Text} (hplain : ∀ l ∈ stock, tag.classify l = .plain) :
    ∀ {lines : List Text} {split : List Stretch}, Splits tag (stock ++ lines) split →
      ∃ back, split = stock.map Stretch.plain ++ back ∧ Splits tag lines back := by
  induction stock with
  | nil => exact fun h => ⟨_, rfl, h⟩
  | cons l stock ih =>
    intro lines split h
    obtain ⟨hl, hstock⟩ := List.forall_mem_cons.mp hplain
    cases split with
    | nil => cases h.lines
    | cons s split =>
      obtain ⟨rest, hlines, hs, hsplit⟩ := h.of_cons
      have hfirst : s.first = l := by
        have := s.head?_lines rest
        rw [← hlines] at this
        exact (Option.some.inj this).symm
      have hform := s.classify_first hs
      rw [hfirst, hl] at hform
      cases s with
      | plain line =>
        obtain rfl : line = l := hfirst
        obtain ⟨-, rfl⟩ := List.cons.inj hlines
        obtain ⟨back, rfl, hback⟩ := ih hstock hsplit
        exact ⟨back, rfl, hback⟩
      | _ => cases hform

/-- The body of a block goes up to its End. -/
theorem takeWhile_body {guard : Opening} {body : List Text} {last : Text} (rest : List Text)
    (hbody : ∀ l ∈ body, tag.Inner guard.deletion l) (hlast : tag.classify last = .ending) :
    (body ++ last :: rest).takeWhile (fun l => !tag.isEnd l) = body := by
  have hinner : ∀ l ∈ body, (!tag.isEnd l) = true := by
    intro l hl
    simp [Tag.isEnd, Tag.unmarked_of_not_mentions (hbody l hl).1]
  have hend := Tag.classify_eq_ending.mp hlast
  rw [List.takeWhile_append_of_pos hinner, List.takeWhile_cons_of_neg (by simp [hend]), List.append_nil]

/-- Lines begin with one sound stretch only. -/
theorem Stretch.eq_of_append {s t : Stretch} (hs : s.Sound tag) (ht : t.Sound tag) {a b : List Text}
    (h : s.lines ++ a = t.lines ++ b) : s = t ∧ a = b := by
  have hfirst : s.first = t.first := by
    rw [← Option.some.injEq, ← s.head?_lines a, ← t.head?_lines b, h]
  have hform : s.form = t.form := by
    rw [← s.classify_first hs, ← t.classify_first ht, hfirst]
  cases s with
  | plain line =>
    cases t with
    | plain line' =>
      obtain ⟨rfl, rfl⟩ := List.cons.inj h
      exact ⟨rfl, rfl⟩
    | _ => cases hform
  | trailing line guard =>
    cases t with
    | trailing line' guard' =>
      cases hform
      obtain ⟨rfl, rfl⟩ := List.cons.inj h
      exact ⟨rfl, rfl⟩
    | _ => cases hform
  | block first guard body last =>
    cases t with
    | block first' guard' body' last' =>
      cases hform
      simp only [lines, List.cons_append, List.append_assoc, List.nil_append, List.cons.injEq] at h
      obtain ⟨rfl, hrest⟩ := h
      have hbody : body = body' := by
        rw [← takeWhile_body a hs.2.2 hs.2.1, hrest, takeWhile_body b ht.2.2 ht.2.1]
      subst hbody
      obtain ⟨rfl, rfl⟩ := List.cons.inj (List.append_cancel_left hrest)
      exact ⟨rfl, rfl⟩
    | _ => cases hform
  | nextLine first guard line =>
    cases t with
    | nextLine first' guard' line' =>
      cases hform
      simp only [lines, List.cons_append, List.nil_append, List.cons.injEq] at h
      obtain ⟨rfl, rfl, rfl⟩ := h
      exact ⟨rfl, rfl⟩
    | _ => cases hform

/-- There is one way to split lines. -/
theorem Splits.unique {lines : List Text} {split other : List Stretch} (h : Splits tag lines split)
    (hother : Splits tag lines other) : other = split := by
  induction split generalizing lines other with
  | nil =>
    obtain rfl : [] = lines := h.lines
    cases other with
    | nil => rfl
    | cons t other =>
      obtain ⟨rest, hrest, -⟩ := hother.of_cons
      exact absurd (List.append_eq_nil_iff.mp hrest.symm).1 t.lines_ne_nil
  | cons s split ih =>
    obtain ⟨rest, rfl, hs, hsplit⟩ := h.of_cons
    cases other with
    | nil => exact absurd (List.append_eq_nil_iff.mp hother.lines.symm).1 s.lines_ne_nil
    | cons t other =>
      obtain ⟨rest', hrest, ht, hsplit'⟩ := hother.of_cons
      obtain ⟨rfl, rfl⟩ := Stretch.eq_of_append hs ht hrest
      rw [ih hsplit hsplit']

end

/-! ## The lines that segments cover -/

theorem Stretch.eq_plain_of_piece {s : Stretch} {t : Text} (h : s.piece = .line t) : s = .plain t := by
  cases s <;> cases h
  rfl

theorem Stretch.isGuarded_of_piece {s : Stretch} {g : Guard} (h : s.piece = .guard g) : s.isGuarded = true := by
  cases s with
  | plain line => cases h
  | _ => rfl

/-- The segments cover the stretches with a guard. -/
theorem flatMap_span_segmentsFrom (split : List Stretch) : ∀ before : List Text,
    (Layout.segmentsFrom before.length (split.map Stretch.piece)).flatMap
        (fun s => span (before ++ split.flatMap Stretch.lines) s.start s.stop) =
      (split.filter Stretch.isGuarded).flatMap Stretch.lines := by
  induction split with
  | nil => exact fun before => rfl
  | cons s split ih =>
    intro before
    have hrest := ih (before ++ s.lines)
    rw [List.length_append, s.length_lines, List.append_assoc] at hrest
    cases hp : s.piece with
    | line t =>
      obtain rfl := s.eq_plain_of_piece hp
      exact hrest
    | guard g =>
      rw [hp, Piece.height] at hrest
      have hlines : s.lines.length = g.height := by rw [s.length_lines, hp, Piece.height]
      have hspan : span (before ++ (s.lines ++ split.flatMap Stretch.lines)) before.length
          (before.length + g.height) = s.lines := by
        simp [span, ← hlines, List.take_append]
      rw [List.map_cons, hp, Layout.segmentsFrom, List.flatMap_cons, List.filter_cons_of_pos (s.isGuarded_of_piece hp),
        List.flatMap_cons, List.flatMap_cons, g.segment_start, g.segment_stop, hspan, hrest]

/-! ## The grammar -/

/-- The reader accepts the lines that split into sound stretches and no others. There is one way to split lines, the
segments are those of the stretches with a guard, where a deletion takes the addition right behind it, they stand one
behind the other, and they cover the lines of those stretches. -/
theorem parse_grammar (tag : Tag) (lines : List Text) :
    ((∃ segments, Segment.parse tag lines = .ok segments) ↔ ∃ split, Splits tag lines split) ∧
      ∀ split, Splits tag lines split →
        (∀ other, Splits tag lines other → other = split) ∧
        let segments := Layout.pairedFrom 0 (split.map Stretch.piece)
        Segment.parse tag lines = .ok segments ∧ Spread lines.length 0 segments ∧
          segments.flatMap (fun s => span lines s.start s.stop) =
            (split.filter Stretch.isGuarded).flatMap Stretch.lines := by
  refine ⟨⟨fun ⟨segments, h⟩ => exists_splits_of_parse h, fun ⟨split, h⟩ => ⟨_, h.parse⟩⟩, fun split h => ?_⟩
  refine ⟨fun other hother => h.unique hother, h.parse, (spread_of_parse h.parse).1, ?_⟩
  have hcover := flatMap_span_segmentsFrom split []
  rw [List.nil_append, h.lines, List.length_nil] at hcover
  rw [← Layout.pairReplacements_segmentsFrom, flatMap_span_pair lines Layout.start_le_stop, hcover]

/-! ## Guards that fit -/

section
variable {tag : Tag}

theorem allBlank_leadingIndent (line : Text) : allBlank (leadingIndent line) = true :=
  List.all_eq_true.mpr (leadingIndent_blank line)

/-- The guard of a stretch is made of characters of its lines. -/
theorem Stretch.over {q : CodePoint → Prop} {s : Stretch} (h : s.Sound tag) (hq : ∀ l ∈ s.lines, ∀ c ∈ l, q c) :
    s.piece.GuardOver q := by
  have hparts : ∀ {line t : Text} {form : LineForm}, tag.classify line = form → line ∈ s.lines → t ∈ form.parts →
      ∀ c ∈ t, q c := by
    rintro line t form rfl hline ht c hc
    exact hq line hline c ((LineForm.sublist_of_mem_parts ht).subset hc)
  cases s with
  | plain line => trivial
  | trailing line guard =>
    have hpart := fun t => hparts (t := t) h.1 List.mem_cons_self
    exact ⟨hpart _ (by simp [LineForm.parts]), by simp, List.forall_mem_singleton.mpr (hpart _ (by simp [LineForm.parts]))⟩
  | nextLine first guard line =>
    have hpart := fun t => hparts (t := t) h.1 List.mem_cons_self
    exact ⟨hpart _ (by simp [LineForm.parts]), hpart _ (by simp [LineForm.parts]),
      List.forall_mem_singleton.mpr (hq line (by simp [lines]))⟩
  | block first guard body last =>
    have hpart := fun t => hparts (t := t) h.1 List.mem_cons_self
    exact ⟨hpart _ (by simp [LineForm.parts]), hpart _ (by simp [LineForm.parts]),
      fun l hl => hq l (by simp [lines, show l ∈ body from hl])⟩

/-- A sound stretch of single lines is a plain line or a guard that fits. -/
theorem Stretch.fits (hid : tag.IsIdentifier) {s : Stretch} (h : s.Sound tag) (hl : ∀ l ∈ s.lines, OneLine l) :
    s.piece.Fits tag := by
  cases s with
  | plain line =>
    have hline := hl line List.mem_cons_self
    exact ⟨hline, (Tag.classify_eq_plain hline).mp h⟩
  | trailing line guard =>
    have hover : Guard.Over (· ≠ char '\n') _ := Stretch.over h hl
    obtain ⟨hnote, hsolid, hplain⟩ := Tag.trailing_fits hid (hl line List.mem_cons_self) h.1
    refine ⟨hnote, rfl, ⟨hover.indent, hover.lines⟩, fun hd l hmem => .inr ?_, rfl, guard.code, rfl, hsolid, hplain⟩
    exact List.mem_singleton.mp hmem ▸ h.2 hd
  | nextLine first guard line =>
    have hover : Guard.Over (· ≠ char '\n') _ := Stretch.over h hl
    obtain ⟨hindent, hnote, hopen⟩ := Tag.marker_fits hid (hl first List.mem_cons_self) h.1
    refine ⟨hnote, hindent ▸ allBlank_leadingIndent first, ⟨hover.indent, hover.lines⟩, fun hd l hmem => .inr ?_,
      hopen, line, rfl, h.2.1, h.2.2.1⟩
    exact List.mem_singleton.mp hmem ▸ h.2.2.2 hd
  | block first guard body last =>
    have hover : Guard.Over (· ≠ char '\n') _ := Stretch.over h hl
    obtain ⟨hindent, hnote⟩ := Tag.beginning_fits hid (hl first List.mem_cons_self) h.1
    exact ⟨hnote, hindent ▸ allBlank_leadingIndent first, ⟨hover.indent, hover.lines⟩,
      fun hd l hmem => (h.2.2 l hmem).2 hd, fun l hmem => (h.2.2 l hmem).1⟩

/-- The lines of a stretch are lines of the file. -/
theorem Splits.mem_lines {lines : List Text} {split : List Stretch} (h : Splits tag lines split) {s : Stretch}
    (hs : s ∈ split) {l : Text} (hl : l ∈ s.lines) : l ∈ lines :=
  h.lines ▸ List.mem_flatMap.mpr ⟨s, hs, hl⟩

/-- Lines that are read without a fault are read as a layout, and each of its guards fits. -/
theorem exists_reads (hid : tag.IsIdentifier) (q : CodePoint → Prop) (lines : List Text) {i : Nat}
    {segments : List Segment} (hl : ∀ l ∈ lines, OneLine l) (hq : ∀ l ∈ lines, ∀ c ∈ l, q c)
    (h : Segment.scan tag i .nothing lines = .ok segments) :
    ∃ layout, Reads tag lines layout ∧ segments = layout.segmentsFrom i ∧
      ∀ p ∈ layout, p.Fits tag ∧ p.GuardOver q := by
  obtain ⟨split, hsplit⟩ := exists_splits lines h
  refine ⟨_, hsplit.reads, Except.ok.inj (h.symm.trans (hsplit.reads.scan i)), List.forall_mem_map.mpr fun s hs => ?_⟩
  have hsound := hsplit.sound s hs
  exact ⟨s.fits hid hsound fun l h => hl l (hsplit.mem_lines hs h), s.over hsound fun l h => hq l (hsplit.mem_lines hs h)⟩

end

end Regraft

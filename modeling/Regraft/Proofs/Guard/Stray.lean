import Mathlib.Data.List.DropRight
import Regraft.Proofs.Guard.Stock
import Regraft.Proofs.Guard.Recomment
/-!
# Mentions that clearing leaves

A guard comment behind code is read if blanks and tabs alone stand between the two. Any other blank there, such as a
form feed, hides the comment from the reader, though it mentions the tag: such a line is `Stray`.

* `mentions_iff_stray`: of the lines that carry no guard, the stray ones mention the tag;
* `mentions_restore`: a commented line that carries no guard mentions the tag if and only if its stock does;
* `clear_complete`: clearing leaves no mention unless code that it keeps is stray; without mentions, clearing again
  changes nothing;
* `clear_incomplete`: two lines on which clearing leaves a mention, and in one case a guard that cannot be paired.
-/
namespace Regraft

/-- Code with a guard comment behind it, where the blanks between them are not those in front of a trailing guard. -/
def Tag.Stray (tag : Tag) (line : Text) : Prop :=
  ∃ code ws mark, line = code ++ (ws ++ mark) ∧ EndsSolid code ∧ (∀ c ∈ ws, isBlank c = true) ∧
    (∃ c ∈ ws, Tag.isGap c = false) ∧ (tag.head? mark).isSome = true

/-- The live code of a piece that clearing keeps: its plain line, or what its deletion took out. -/
def Piece.kept : Piece → List Text
  | line t => [t]
  | guard g => if g.deletion then g.lines else []

section
variable {tag : Tag}

/-- A guard comment right behind code is read as a trailing guard, or an earlier one is. -/
theorem Tag.trailing?_ne_none {code gap mark : Text} (hl : OneLine (code ++ (gap ++ mark))) (hsolid : EndsSolid code)
    (hgap : ∀ c ∈ gap, Tag.isGap c = true) (hmark : (tag.head? mark).isSome = true) :
    tag.trailing? (code ++ (gap ++ mark)) ≠ none := by
  induction code with
  | nil => exact absurd rfl hsolid.ne_nil
  | cons c cs ih =>
    rw [List.cons_append] at hl ⊢
    have hcs : OneLine (cs ++ (gap ++ mark)) := fun d hd => hl d (List.mem_cons_of_mem _ hd)
    rw [Tag.trailing?_cons hl]
    split
    · exact Option.some_ne_none _
    · rename_i hnone
      rw [ne_eq, Option.map_eq_none_iff]
      cases cs with
      | nil =>
        obtain ⟨d, hd, hb⟩ := hsolid
        obtain rfl : c = d := by simpa using hd
        obtain ⟨rest, rfl⟩ := Tag.exists_of_head? hmark
        rw [List.nil_append, List.dropWhile_append_of_pos hgap, List.dropWhile_cons_of_neg (by decide), hb] at hnone
        rw [Option.isSome_iff_ne_none] at hmark
        exact absurd hnone hmark
      | cons d cs => exact ih hcs (hsolid.of_cons (List.cons_ne_nil d cs))

/-! ## Stray lines -/

theorem Tag.Stray.mentions {line : Text} (h : tag.Stray line) : tag.mentions line = true := by
  obtain ⟨code, ws, mark, rfl, -, -, -, hmark⟩ := h
  exact Tag.mentions_iff.mpr ⟨code ++ ws, mark, (List.append_assoc _ _ _).symm, hmark⟩

/-- A text is code and the blanks behind it. -/
theorem exists_solid (t : Text) :
    ∃ code ws, t = code ++ ws ∧ (∀ c ∈ ws, isBlank c = true) ∧ (code = [] ∨ EndsSolid code) := by
  refine ⟨t.rdropWhile isBlank, t.rtakeWhile isBlank, List.rdropWhile_append_rtakeWhile.symm,
    fun c hc => List.mem_rtakeWhile_imp hc, ?_⟩
  by_cases hnil : t.rdropWhile isBlank = []
  · exact .inl hnil
  · have hlast := List.rdropWhile_last_not isBlank t hnil
    exact .inr ⟨_, List.getLast?_eq_some_getLast hnil, by simpa using hlast⟩

/-- Of the lines that carry no guard, the stray ones mention the tag. -/
theorem mentions_iff_stray {line : Text} (hl : OneLine line) (hp : tag.Plain line) :
    tag.mentions line = true ↔ tag.Stray line := by
  refine ⟨fun h => ?_, Tag.Stray.mentions⟩
  obtain ⟨before, mark, rfl, hmark⟩ := Tag.mentions_iff.mp h
  obtain ⟨code, ws, rfl, hws, hcode⟩ := exists_solid before
  rw [List.append_assoc] at hl hp ⊢
  rcases hcode with rfl | hsolid
  · -- blanks alone in front of the mark make it a guard of its own
    obtain ⟨rest, rfl⟩ := Tag.exists_of_head? hmark
    have hmarked := hp.unmarked
    rw [List.nil_append, afterIndent_append hws (not_blank_slash _)] at hmarked
    rw [hmarked] at hmark
    cases hmark
  · refine ⟨code, ws, mark, rfl, hsolid, hws, ?_, hmark⟩
    by_contra hgap
    have hgap : ∀ c ∈ ws, Tag.isGap c = true := by simpa using hgap
    exact Tag.trailing?_ne_none hl hsolid hgap hmark hp.untrailed

/-! ## Stock lines -/

theorem mentions_dropSpace (t : Text) : tag.mentions (dropSpace t) = tag.mentions t := by
  unfold dropSpace
  split
  · exact (@mentions_append_blank tag [char ' '] (by decide) _).symm
  · rfl

/-- A commented line that carries no guard mentions the tag if and only if its stock does. -/
theorem mentions_uncomment {line stock : Text} (hl : OneLine line) (hp : tag.Plain line)
    (h : uncomment? line = some stock) : tag.mentions stock = tag.mentions line := by
  obtain ⟨rest, hrest, rfl⟩ := (uncomment?_eq_some hl).mp h
  have hline : line = leadingIndent line ++ char '/' :: char '/' :: rest := by
    rw [← hrest, leadingIndent_append_afterIndent]
  have hfirst : tag.head? (char '/' :: char '/' :: rest) = none := hrest ▸ hp.unmarked
  have hsecond : tag.head? (char '/' :: rest) = none := by
    by_contra hmark
    -- the first slash would be code with a guard behind it
    have hsolid : EndsSolid (leadingIndent line ++ [char '/']) :=
      EndsSolid.append_left ⟨char '/', rfl, by decide⟩ _
    have hsplit : line = (leadingIndent line ++ [char '/']) ++ ([] ++ char '/' :: rest) := by
      simpa using hline
    have huntrailed := hp.untrailed
    rw [hsplit] at hl huntrailed
    exact Tag.trailing?_ne_none hl hsolid (by simp) (Option.isSome_iff_ne_none.mpr hmark) huntrailed
  rw [mentions_append_blank (leadingIndent_blank line), mentions_dropSpace]
  conv => rhs; rw [hline]
  rw [mentions_append_blank (leadingIndent_blank line)]
  simp [Tag.mentions, hfirst, hsecond]

theorem mentions_restore {line : Text} (h : Restorable line) (hp : tag.Plain line) :
    tag.mentions (Segment.restore line) = tag.mentions line := by
  cases hb : allBlank line with
  | true => simp [Segment.restore, hb]
  | false =>
    obtain ⟨rest, -, hu, -⟩ := exists_of_not_blank h hb
    exact mentions_uncomment h.oneLine hp hu

/-- Lines of a deletion that fits carry no guard. -/
theorem Guard.Fits.plain_lines {g : Guard} (h : g.Fits tag) : g.deletion = true → ∀ l ∈ g.lines, tag.Plain l := by
  obtain ⟨style, deletion, comment, indent, lines⟩ := g
  have hstyled := h.styled
  intro hd l hl
  cases style with
  | block => exact Tag.plain_of_not_mentions (hstyled l hl)
  | singleLine =>
    obtain ⟨-, code, rfl, -, hplain⟩ := hstyled
    exact List.mem_singleton.mp hl ▸ hplain
  | nextLine =>
    obtain ⟨-, line, rfl, -, hm⟩ := hstyled
    exact Tag.plain_of_not_mentions (List.mem_singleton.mp hl ▸ hm)

/-- The stock of a piece mentions the tag where the code that is kept is stray. -/
theorem Piece.Fits.mentions_stock {p : Piece} (h : p.Fits tag) :
    (∀ l ∈ p.stock, tag.mentions l = false) ↔ ∀ code ∈ p.kept, ¬tag.Stray code := by
  have hstray : ∀ {l : Text}, OneLine l → tag.Plain l → (tag.mentions l = false ↔ ¬tag.Stray l) := fun hl hp => by
    rw [← mentions_iff_stray hl hp, Bool.not_eq_true]
  cases p with
  | line t => simpa [Piece.stock, Piece.kept] using hstray h.1 h.2
  | guard g =>
    have hfits : g.Fits tag := h
    cases hd : g.deletion with
    | false => simp [Piece.stock, Piece.kept, Guard.stock, hd]
    | true =>
      simp only [Piece.stock, Piece.kept, Guard.stock, hd, if_true, List.forall_mem_map]
      refine forall₂_congr fun l hl => ?_
      have hr := hfits.restorable_of_mem hd hl
      have hplain := hfits.plain_lines hd l hl
      rw [mentions_restore hr hplain, hstray hr.oneLine hplain]

/-! ## Clearing -/

theorem reads_of_not_mentions {lines : List Text} (h : ∀ l ∈ lines, tag.mentions l = false) :
    Reads tag lines (lines.map Piece.line) := by
  induction lines with
  | nil => exact .nil
  | cons l lines ih =>
    obtain ⟨hl, hlines⟩ := List.forall_mem_cons.mp h
    exact .line (Tag.classify_of_not_mentions hl) (ih hlines)

/-- Lines without mentions hold no guards. -/
theorem parse_of_not_mentions {lines : List Text} (h : ∀ l ∈ lines, tag.mentions l = false) :
    Segment.parse tag lines = .ok [] := by
  have hnone : ∀ i, Layout.segmentsFrom i (lines.map Piece.line) = [] := by
    clear h
    induction lines with
    | nil => exact fun _ => rfl
    | cons l lines ih => exact fun i => ih (i + 1)
  rw [Segment.parse, (reads_of_not_mentions h).scan 0, hnone]
  rfl

/-- Lines without mentions are their own stock lines. -/
theorem clearLines_of_not_mentions {lines : List Text} (h : ∀ l ∈ lines, tag.mentions l = false) :
    clearLines tag lines = .ok ⟨lines, (List.range lines.length).map some⟩ := by
  have hreads := reads_of_not_mentions h
  have hstock : Layout.stock (lines.map Piece.line) = lines := by
    simp [Layout.stock, List.flatMap_map, Piece.stock]
  rw [clearLines_of_reads hreads, hstock, Layout.sourcesFrom_map_line, List.range_eq_range']

/-- Clearing leaves no mention of the tag if and only if no code that it keeps is stray, and clearing lines without
mentions again succeeds and leaves them as they are. -/
theorem clear_complete (hid : tag.IsIdentifier) {lines : List Text} (hl : ∀ l ∈ lines, OneLine l)
    {cleared : Sourced Nat} (h : clearLines tag lines = .ok cleared) :
    ∃ split, Splits tag lines split ∧
      ((∀ l ∈ cleared.lines, tag.mentions l = false) ↔ ∀ s ∈ split, ∀ code ∈ s.piece.kept, ¬tag.Stray code) ∧
      ((∀ l ∈ cleared.lines, tag.mentions l = false) →
        clearLines tag cleared.lines = .ok ⟨cleared.lines, (List.range cleared.lines.length).map some⟩) := by
  obtain ⟨split, hsplit, rfl⟩ := exists_splits_of_clearLines h
  refine ⟨split, hsplit, ?_, clearLines_of_not_mentions⟩
  have hfits : ∀ s ∈ split, s.piece.Fits tag := fun s hs =>
    s.fits hid (hsplit.sound s hs) fun l h => hl l (hsplit.mem_lines hs h)
  calc (∀ l ∈ Layout.stock (split.map Stretch.piece), tag.mentions l = false)
      ↔ ∀ s ∈ split, ∀ l ∈ s.piece.stock, tag.mentions l = false := by
        simp only [Layout.stock, List.flatMap_map, List.mem_flatMap, forall_exists_index, and_imp]
        exact ⟨fun h s hs l hl => h l s hs hl, fun h l s hs hl => h s hs l hl⟩
    _ ↔ ∀ s ∈ split, ∀ code ∈ s.piece.kept, ¬tag.Stray code :=
        forall₂_congr fun s hs => (hfits s hs).mentions_stock

end

/-- A block with a blank line, a trailing deletion and an addition, of which clearing leaves no mention. -/
theorem clear_complete_sample :
    let tag : Tag := ⟨"T", by decide, by decide⟩
    let lines : List Text := ["a; // T", "// T-: Begin", "  // b;", "", "// T: End", "//c; // T-"]
    let cleared : Sourced Nat := ⟨["  b;", "", "c;"], [some 2, some 3, some 5]⟩
    tag.IsIdentifier ∧ (∀ l ∈ lines, OneLine l) ∧ clearLines tag lines = .ok cleared ∧
      ∃ split, Splits tag lines split ∧
        ((∀ l ∈ cleared.lines, tag.mentions l = false) ↔ ∀ s ∈ split, ∀ code ∈ s.piece.kept, ¬tag.Stray code) ∧
        clearLines tag cleared.lines = .ok ⟨cleared.lines, (List.range cleared.lines.length).map some⟩ := by
  intro tag lines cleared
  have hid : tag.IsIdentifier := by unfold Tag.IsIdentifier; decide
  have hl : ∀ l ∈ lines, OneLine l := by unfold OneLine; decide
  have hclear : clearLines tag lines = .ok cleared := by decide
  obtain ⟨split, hsplit, hiff, hagain⟩ := clear_complete hid hl hclear
  exact ⟨hid, hl, hclear, split, hsplit, hiff, hagain (by decide)⟩

/-- A form feed in front of the comment: the line is kept, and what stays of the other is a guard without its line. -/
theorem clear_incomplete :
    let tag : Tag := ⟨"T", by decide, by decide⟩
    let kept : Text := "int a;\x0c// T"
    let taken : Text := "//\x0c// T // T-"
    let left : Text := "\x0c// T"
    tag.IsIdentifier ∧ (∀ l ∈ [kept, taken], OneLine l) ∧
      clearLines tag [kept] = .ok ⟨[kept], [some 0]⟩ ∧ tag.mentions kept = true ∧
      clearLines tag [taken] = .ok ⟨[left], [some 0]⟩ ∧ tag.mentions left = true ∧
      clearLines tag [left] = .error ⟨1, .atEndOfFile⟩ := by
  unfold Tag.IsIdentifier OneLine
  decide

end Regraft

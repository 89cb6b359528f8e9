import Regraft.Proofs.Guard.Layout
/-!
# Deleted lines written again

The deleted lines of a guard may have been commented out by hand. When their record is spliced in, the stock is
commented out anew (`recomment`). The new lines stand for the same stock, and make a guard that fits:

* `restore_recomment`, `allBlank_recomment`: the stock and its blank lines are the same;
* `mentions_recomment`: the tag is not mentioned where it was not before;
* `plain_commentOut`: a trailing guard on a line that is itself a comment stays the only guard of the line;
* `Guard.Fits.recommented`: a guard that fits, fits again.
-/
namespace Regraft

/-- A deleted line as it is written again; a blank line stands for itself. -/
def recomment (line : Text) : Text := if allBlank line then line else commentOut (Segment.restore line)

/-- A line that a deletion can hold. -/
structure Restorable (line : Text) : Prop where
  oneLine : OneLine line
  stock : allBlank line = true ∨ (uncomment? line).isSome = true

/-! ## The stock of a deleted line -/

theorem dropWhile_dropSpace (t : Text) : (dropSpace t).dropWhile isBlank = t.dropWhile isBlank := by
  unfold dropSpace
  split
  · exact (List.dropWhile_cons_of_pos (by decide)).symm
  · rfl

/-- A commented line, its stock, and the stock commented out again have the text behind the mark in common. -/
theorem exists_of_not_blank {line : Text} (h : Restorable line) (hb : allBlank line = false) :
    ∃ rest, afterIndent line = char '/' :: char '/' :: rest ∧
      uncomment? line = some (Segment.restore line) ∧
      Segment.restore line = leadingIndent line ++ dropSpace rest ∧
      afterIndent (Segment.restore line) = rest.dropWhile isBlank := by
  obtain ⟨stock, hs⟩ := Option.isSome_iff_exists.mp (h.stock.resolve_left (by simp [hb]))
  obtain ⟨rest, hr, heq⟩ := (uncomment?_eq_some h.oneLine).mp hs
  have hrestore := restore_of_uncomment? hb hs
  refine ⟨rest, hr, by rw [hs, hrestore], by rw [hrestore, heq], ?_⟩
  rw [hrestore, heq, afterIndent, List.dropWhile_append_of_pos (leadingIndent_blank line)]
  exact dropWhile_dropSpace rest

/-- The stock of a deleted line stands in the line. -/
theorem restore_sublist (line : Text) : (Segment.restore line).Sublist line := by
  unfold Segment.restore
  split
  · exact List.Sublist.refl _
  · cases h : uncomment? line with
    | none => exact List.Sublist.refl _
    | some stock => exact uncomment?_sublist h

theorem oneLine_restore {line : Text} (h : Restorable line) : OneLine (Segment.restore line) :=
  h.oneLine.of_sublist (restore_sublist line)

theorem allBlank_recomment (line : Text) : allBlank (recomment line) = allBlank line := by
  unfold recomment
  split
  · rfl
  · rename_i hb
    rw [not_allBlank_commentOut]
    simpa using hb

theorem restorable_recomment {line : Text} (h : Restorable line) : Restorable (recomment line) := by
  unfold recomment
  split
  · exact h
  · refine ⟨oneLine_commentOut (oneLine_restore h), .inr ?_⟩
    rw [uncomment?_commentOut (oneLine_restore h)]
    rfl

/-- A line written again stands for the same stock. -/
theorem restore_recomment {line : Text} (h : Restorable line) :
    Segment.restore (recomment line) = Segment.restore line := by
  unfold recomment
  split
  · rfl
  · exact restore_of_uncomment? (not_allBlank_commentOut _) (uncomment?_commentOut (oneLine_restore h))

theorem recomment_over {q : CodePoint → Prop} (hslash : q (char '/')) (hspace : q (char ' ')) {line : Text}
    (hq : ∀ c ∈ line, q c) : ∀ c ∈ recomment line, q c := by
  have hstock : ∀ c ∈ Segment.restore line, q c := fun c hc => hq c ((restore_sublist line).subset hc)
  unfold recomment
  split
  · exact hq
  · exact over_commentOut hslash hspace hstock

/-! ## Marks in lines written again -/

section
variable {tag : Tag}

theorem head?_of_not_slash {c : CodePoint} {t : Text} (h : c ≠ char '/') : tag.head? (c :: t) = none := by
  unfold Tag.head?
  split
  · rename_i heq
    exact absurd (List.cons.inj heq).1 h
  · rfl

theorem head?_slash_of_not_slash {t : Text} (h : ∀ c ∈ t.head?, c ≠ char '/') :
    tag.head? (char '/' :: t) = none := by
  unfold Tag.head?
  split
  · rename_i heq
    exact absurd rfl (h (char '/') (by simp [(List.cons.inj heq).2]))
  · rfl

theorem not_slash_of_isBlank {c : CodePoint} (h : isBlank c = true) : c ≠ char '/' := by
  intro hx
  subst hx
  revert h
  decide

theorem mentions_append_blank {ws : Text} (hws : ∀ c ∈ ws, isBlank c = true) (t : Text) :
    tag.mentions (ws ++ t) = tag.mentions t := by
  induction ws with
  | nil => rfl
  | cons c ws ih =>
    have hc := not_slash_of_isBlank (hws c List.mem_cons_self)
    simp [Tag.mentions, head?_of_not_slash hc, ih fun d hd => hws d (List.mem_cons_of_mem _ hd)]

/-- What follows the mark of a line that is commented out. -/
theorem behindMark (line : Text) : ∃ x, commentOut line = leadingIndent line ++ char '/' :: char '/' :: x ∧
    x.dropWhile isBlank = afterIndent line ∧ (x = [] ∨ x = char ' ' :: afterIndent line) := by
  refine ⟨_, commentOut_eq line, ?_, ?_⟩
  · split
    · rename_i h
      exact h.symm
    · rw [List.dropWhile_cons_of_pos (by decide)]
      exact dropWhile_eq_self (head?_afterIndent line)
  · split
    · exact .inl rfl
    · exact .inr rfl

/-- A mark is found behind the blanks after the slashes, however many there are. -/
theorem head?_slashes_congr {x y : Text} (h : x.dropWhile isBlank = y.dropWhile isBlank) :
    tag.head? (char '/' :: char '/' :: x) = tag.head? (char '/' :: char '/' :: y) := by
  rw [Tag.head?_slashes, Tag.head?_slashes, h]

theorem mentions_recomment {line : Text} (h : Restorable line) (hm : tag.mentions line = false) :
    tag.mentions (recomment line) = false := by
  cases hb : allBlank line with
  | true => simpa [recomment, hb] using hm
  | false =>
    obtain ⟨rest, hr, -, -, hafter⟩ := exists_of_not_blank h hb
    obtain ⟨x, hx, hdrop, hcase⟩ := behindMark (Segment.restore line)
    rw [← leadingIndent_append_afterIndent line, hr] at hm
    have hmark := Tag.mentions_append_left _ hm
    have hhead : tag.head? (char '/' :: char '/' :: x) = none := by
      rw [head?_slashes_congr (hdrop.trans hafter)]
      exact Tag.head?_of_not_mentions hmark
    have hrest : tag.mentions (rest.dropWhile isBlank) = false := by
      refine Tag.mentions_append_left (rest.takeWhile isBlank) ?_
      rw [List.takeWhile_append_dropWhile]
      exact Tag.mentions_append_left [char '/', char '/'] hmark
    have htail : tag.mentions x = false := by
      rcases hcase with rfl | rfl
      · rfl
      · rw [hafter]
        exact (@mentions_append_blank tag [char ' '] (by decide) _).trans hrest
    have hslash : tag.head? (char '/' :: x) = none :=
      head?_slash_of_not_slash (by rcases hcase with rfl | rfl <;> simp)
    simp only [recomment, hb, hx, Bool.false_eq_true, if_false]
    rw [mentions_append_blank (leadingIndent_blank _)]
    simp [Tag.mentions, hhead, hslash, htail]

/-! ## Trailing guards on comments -/

theorem trailing?_append_blank {ws t : Text} (hws : ∀ c ∈ ws, isBlank c = true) (hl : OneLine (ws ++ t)) :
    tag.trailing? (ws ++ t) = none ↔ tag.trailing? t = none := by
  induction ws with
  | nil => rfl
  | cons c ws ih =>
    have hc := hws c List.mem_cons_self
    rw [List.cons_append] at hl ⊢
    rw [Tag.trailing?_cons hl, hc]
    simp only [if_true, Option.map_eq_none_iff]
    exact ih (fun d hd => hws d (List.mem_cons_of_mem _ hd)) fun d hd => hl d (List.mem_cons_of_mem _ hd)

/-- A stock line that carries no guard carries none when it is commented out, unless the mark makes one. -/
theorem plain_commentOut {stock : Text} (hl : OneLine stock) (hp : tag.Plain stock)
    (hhead : tag.head? (afterIndent (commentOut stock)) = none) : tag.Plain (commentOut stock) := by
  refine ⟨hhead, ?_⟩
  obtain ⟨x, hx, hdrop, hcase⟩ := behindMark stock
  have hline : OneLine (leadingIndent stock ++ char '/' :: char '/' :: x) := hx ▸ oneLine_commentOut hl
  have hline₁ : OneLine (char '/' :: char '/' :: x) := fun c hc => hline c (List.mem_append_right _ hc)
  have hline₂ : OneLine (char '/' :: x) := fun c hc => hline₁ c (List.mem_cons_of_mem _ hc)
  have hslash : tag.head? (char '/' :: x) = none :=
    head?_slash_of_not_slash (by rcases hcase with rfl | rfl <;> simp)
  have hgap : tag.head? (x.dropWhile Tag.isGap) = none := by
    rcases hcase with rfl | rfl
    · rfl
    · rw [List.dropWhile_cons_of_pos (by decide)]
      refine (congrArg tag.head? (dropWhile_eq_self fun c hc => ?_)).trans hp.unmarked
      exact Bool.eq_false_iff.mpr fun hg => by
        have := head?_afterIndent stock c hc
        rw [Tag.isBlank_of_isGap hg] at this
        cases this
  have htail : tag.trailing? x = none := by
    have hstock := hp.untrailed
    rw [← leadingIndent_append_afterIndent stock, trailing?_append_blank (leadingIndent_blank stock)
      (by rwa [leadingIndent_append_afterIndent])] at hstock
    rcases hcase with rfl | rfl
    · rfl
    · refine (@trailing?_append_blank tag [char ' '] _ (by decide) fun c hc => hline₂ c ?_).mpr hstock
      exact List.mem_cons_of_mem _ hc
  rw [hx, trailing?_append_blank (leadingIndent_blank stock) hline, Tag.trailing?_cons hline₁,
    List.dropWhile_cons_of_neg (by decide), hslash, Tag.trailing?_cons hline₂, hgap, htail]
  simp

theorem endsSolid_of_append {s t : Text} (h : EndsSolid (s ++ t)) (ht : t ≠ []) : EndsSolid t := by
  obtain ⟨c, hc, hb⟩ := h
  rw [List.getLast?_append, List.getLast?_eq_some_getLast ht, Option.some_or] at hc
  exact ⟨c, (List.getLast?_eq_some_getLast ht).trans hc, hb⟩

/-- A comment that ends with a solid character still does when it is written again. -/
theorem endsSolid_recomment {line : Text} (h : Restorable line) (hs : EndsSolid line) :
    EndsSolid (recomment line) := by
  have hb := not_allBlank_of_endsSolid hs
  obtain ⟨rest, hr, -, -, hafter⟩ := exists_of_not_blank h hb
  simp only [recomment, hb, Bool.false_eq_true, if_false]
  rw [commentOut_eq, hafter]
  refine EndsSolid.append_left ?_ _
  split
  · exact ⟨char '/', rfl, by decide⟩
  · rename_i hne
    have hrest : line = (leadingIndent line ++ char '/' :: char '/' :: rest.takeWhile isBlank) ++
        rest.dropWhile isBlank := by
      conv => lhs; rw [← leadingIndent_append_afterIndent line, hr]
      simp [List.takeWhile_append_dropWhile]
    rw [hrest] at hs
    exact (endsSolid_of_append hs hne).append_left [char '/', char '/', char ' ']

end

/-! ## Guards written again -/

namespace Guard

/-- A guard with its deleted lines written again. -/
def recommented (g : Guard) : Guard := { g with lines := if g.deletion then g.lines.map recomment else g.lines }

theorem height_recommented (g : Guard) : g.recommented.height = g.height := by
  have hlen : g.recommented.lines.length = g.lines.length := by
    unfold recommented
    split <;> simp
  have hstyle : g.recommented.style = g.style := rfl
  simp only [height, hlen, hstyle]

section
variable {tag : Tag} {g : Guard}

theorem Fits.restorable_of_mem (h : g.Fits tag) (hd : g.deletion = true) {line : Text} (hl : line ∈ g.lines) :
    Restorable line :=
  ⟨h.oneLine.2 line hl, h.restorable hd line hl⟩

theorem recommented_of_addition (hd : g.deletion = false) : g.recommented = g := by
  unfold recommented
  rw [if_neg (by simp [hd])]

theorem Fits.map_restore_recomment (h : g.Fits tag) (hd : g.deletion = true) :
    (g.lines.map recomment).map Segment.restore = g.lines.map Segment.restore := by
  rw [List.map_map]
  exact List.map_congr_left fun l hl => restore_recomment (h.restorable_of_mem hd hl)

theorem Fits.stock_recommented (h : g.Fits tag) : g.recommented.stock = g.stock := by
  cases hd : g.deletion with
  | false => rw [recommented_of_addition hd]
  | true => simp only [stock, recommented, hd, if_true, h.map_restore_recomment hd]

theorem blankOffsets_map_recomment (lines : List Text) :
    Segment.blankOffsets (lines.map recomment) = Segment.blankOffsets lines := by
  simp [Segment.blankOffsets, Function.comp_def, allBlank_recomment]

/-- A guard with its deleted lines written again fits, if none of its stock lines carries a guard itself. -/
theorem Fits.recommented (h : g.Fits tag) (hp : ∀ l ∈ g.stock, tag.Plain l) : g.recommented.Fits tag := by
  cases hd : g.deletion with
  | false => rwa [recommented_of_addition hd]
  | true =>
    have hline : ∀ l ∈ g.lines.map recomment, ∃ l' ∈ g.lines, Restorable l' ∧ recomment l' = l := by
      intro l hl
      obtain ⟨l', hl', rfl⟩ := List.mem_map.mp hl
      exact ⟨l', hl', h.restorable_of_mem hd hl', rfl⟩
    have hlines : g.recommented.lines = g.lines.map recomment := by simp [Guard.recommented, hd]
    have hstyled := h.styled
    refine ⟨h.comment, h.indent, ⟨h.oneLine.1, ?_⟩, ?_, ?_⟩
    · rw [hlines]
      intro l hl
      obtain ⟨l', -, hr, rfl⟩ := hline l hl
      exact (restorable_recomment hr).oneLine
    · rw [hlines]
      intro _ l hl
      obtain ⟨l', -, hr, rfl⟩ := hline l hl
      exact (restorable_recomment hr).stock
    · rw [hlines]
      obtain ⟨style, deletion, comment, indent, lines⟩ := g
      cases style with
      | block =>
        intro l hl
        obtain ⟨l', hl', hr, rfl⟩ := hline l hl
        exact mentions_recomment hr (hstyled l' hl')
      | singleLine =>
        obtain ⟨hi, code, rfl, hsolid, hplain⟩ := hstyled
        have hr := h.restorable_of_mem hd List.mem_cons_self
        have hb := not_allBlank_of_endsSolid hsolid
        refine ⟨hi, recomment code, rfl, endsSolid_recomment hr hsolid, ?_⟩
        obtain ⟨rest, hrest, -, -, hafter⟩ := exists_of_not_blank hr hb
        simp only [recomment, hb, Bool.false_eq_true, if_false]
        refine plain_commentOut (oneLine_restore hr) (hp _ ?_) ?_
        · simp only [stock, show deletion = true from hd, if_true]
          exact List.mem_singleton.mpr rfl
        · obtain ⟨x, hx, hdrop, -⟩ := behindMark (Segment.restore code)
          have hhead := hplain.unmarked
          rw [hrest] at hhead
          rw [hx, afterIndent_append (leadingIndent_blank _) (not_blank_slash _),
            head?_slashes_congr (hdrop.trans hafter), hhead]
      | nextLine =>
        obtain ⟨hopen, line, rfl, hb, hm⟩ := hstyled
        have hr := h.restorable_of_mem hd List.mem_cons_self
        exact ⟨hopen, recomment line, rfl, by rw [allBlank_recomment, hb], mentions_recomment hr hm⟩

theorem Over.recommented {q : CodePoint → Prop} (hslash : q (char '/')) (hspace : q (char ' ')) (hq : g.Over q) :
    g.recommented.Over q := by
  cases hd : g.deletion with
  | false => rwa [recommented_of_addition hd]
  | true =>
    refine ⟨hq.comment, hq.indent, ?_⟩
    simp only [Guard.recommented, hd, if_true]
    intro l hl
    obtain ⟨l', hl', rfl⟩ := List.mem_map.mp hl
    exact recomment_over hslash hspace (hq.lines l' hl')

end

end Guard

end Regraft

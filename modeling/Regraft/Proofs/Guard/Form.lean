import Regraft.Proofs.Guard.Mark
/-!
# Forms of guard comments

The writers of guard comments against their readers, for tags that are identifiers and lines without line
feeds. What a reader finds can be written again (`NoteFits`, `Unclosed`), and what is written is read back:

* `classify_formatBegin`, `isEnd_formatEnd`, `classify_formatMarker`, `classify_formatTrailing`;
* `isEnd_of_begin?`: no line opens and closes a block;
* `beginning_fits`, `marker_fits`, `trailing_fits`: the same facts hold of every guard that was read;
* `classify_eq_plain`: the lines that carry no guard comment.
-/
namespace Regraft

/-- The dash of a deletion. -/
def dash (deletion : Bool) : Text := if deletion then [char '-'] else []

/-- A comment that can stand behind the tag: it does not continue the tag, and does not bring in a dash. -/
structure NoteFits (deletion : Bool) (comment : Text) : Prop where
  oneLine : OneLine comment
  opens : deletion = false → ∀ c ∈ comment.head?, isWordChar c = false ∧ c ≠ char '-'

/-- A comment that neither opens nor closes a block. -/
structure Unclosed (comment : Text) : Prop where
  notEnd : closesWith "End" (comment.dropWhile isBlank) = false
  notBegin : commentBeforeBegin? comment = none

/-! ## Notes -/

theorem takeDash_eq {tail rest : Text} {deletion : Bool} (h : takeDash tail = (deletion, rest)) :
    tail = dash deletion ++ rest ∧ (deletion = false → ∀ c ∈ rest.head?, c ≠ char '-') := by
  unfold takeDash at h
  split at h
  · obtain ⟨rfl, rfl⟩ := Prod.mk.inj h
    exact ⟨rfl, fun h => by cases h⟩
  · rename_i hno
    obtain ⟨rfl, rfl⟩ := Prod.mk.inj h
    refine ⟨rfl, fun _ c hc hd => ?_⟩
    cases tail with
    | nil => cases hc
    | cons d tail =>
      obtain rfl : d = c := by simpa using hc
      exact hno tail (by rw [hd])

theorem takeDash_sublist {tail rest : Text} {deletion : Bool} (h : takeDash tail = (deletion, rest)) :
    rest.Sublist tail := by
  rw [(takeDash_eq h).1]
  exact List.sublist_append_right _ _

theorem takeDash_dash {deletion : Bool} {rest : Text}
    (h : deletion = false → ∀ c ∈ rest.head?, c ≠ char '-') :
    takeDash (dash deletion ++ rest) = (deletion, rest) := by
  cases deletion with
  | true => rfl
  | false =>
    show takeDash rest = (false, rest)
    unfold takeDash
    split
    · exact absurd rfl (h rfl _ rfl)
    · rfl

theorem NoteFits.of_prefix {deletion : Bool} {comment rest : Text} (h : NoteFits deletion (comment ++ rest)) :
    NoteFits deletion comment := by
  refine ⟨fun c hc => h.oneLine c (by simp [hc]), fun hd c hc => h.opens hd c ?_⟩
  cases comment with
  | nil => cases hc
  | cons d comment => exact hc

/-- What follows the tag of a mark is a note. -/
theorem noteFits_of_tail {tail comment : Text} {deletion : Bool} (ht : OneLine tail)
    (hword : ∀ c ∈ tail.head?, isWordChar c = false) (h : takeDash tail = (deletion, comment)) :
    NoteFits deletion comment := by
  obtain ⟨rfl, hdash⟩ := takeDash_eq h
  refine ⟨fun c hc => ht c (by simp [hc]), fun hd c hc => ⟨?_, hdash hd c hc⟩⟩
  subst hd
  exact hword c hc

/-! ## Words that close a comment -/

/-- Behind the colon, a comment is closed by blanks and the word alone. -/
theorem closesWith_cons {word t : Text} {c : CodePoint} (h : closesWith word (c :: t) = true) :
    c = char ':' ∧ ∀ d ∈ t, isBlank d = true ∨ d ∈ word := by
  unfold closesWith at h
  split at h
  · rename_i rest hc
    obtain ⟨rfl, rfl⟩ := List.cons.inj hc
    refine ⟨rfl, fun d hd => ?_⟩
    split at h
    · rename_i tail htail
      rw [after?_eq_some_iff] at htail
      rw [← List.takeWhile_append_dropWhile (p := isBlank) (l := t), htail] at hd
      rcases List.mem_append.mp hd with hd | hd
      · exact .inl (List.mem_takeWhile_imp hd)
      · rcases List.mem_append.mp hd with hd | hd
        · exact .inr hd
        · exact .inl (List.all_eq_true.mp h d hd)
    · cases h
  · cases h

theorem closesWith_eq_false {word t : Text} {c d : CodePoint} (hd : d ∈ t) (hb : isBlank d = false)
    (hw : d ∉ word) : closesWith word (c :: t) = false := by
  refine Bool.eq_false_iff.mpr fun h => ?_
  rcases (closesWith_cons h).2 d hd with h | h
  · rw [hb] at h
    cases h
  · exact hw h

/-- The comment of a written Begin is read back. -/
theorem commentBeforeBegin?_append {comment : Text} (h : OneLine comment) :
    commentBeforeBegin? (comment ++ (": Begin" : Text)) = some comment := by
  induction comment with
  | nil => rfl
  | cons c cs ih =>
    have hopen : closesWith "Begin" (c :: (cs ++ (": Begin" : Text))) = false :=
      closesWith_eq_false (d := char ':') (by simp [show (": Begin" : Text) = char ':' :: " Begin" from rfl])
        (by decide) (by decide)
    simp only [List.cons_append, commentBeforeBegin?, hopen, h c (by simp)]
    rw [ih fun d hd => h d (by simp [hd])]
    rfl

/-- A character of another word, behind the blanks, keeps a word from closing the comment. -/
theorem closesWith_dropWhile_eq_false {word t : Text} {d : CodePoint} (hd : d ∈ t) (hb : isBlank d = false)
    (hcolon : d ≠ char ':') (hw : d ∉ word) : closesWith word (t.dropWhile isBlank) = false := by
  have hmem : d ∈ t.dropWhile isBlank := by
    rw [← List.takeWhile_append_dropWhile (p := isBlank) (l := t)] at hd
    refine (List.mem_append.mp hd).resolve_left fun hblank => ?_
    rw [List.mem_takeWhile_imp hblank] at hb
    cases hb
  cases hdrop : t.dropWhile isBlank with
  | nil => rfl
  | cons c rest =>
    rw [hdrop] at hmem
    rcases List.mem_cons.mp hmem with rfl | hmem
    · exact Bool.eq_false_iff.mpr fun h => hcolon (closesWith_cons h).1
    · exact closesWith_eq_false hmem hb hw

/-- A word that closes a comment stands in it. -/
theorem mem_of_closesWith {word t : Text} (h : closesWith word t = true) : ∀ d ∈ word, d ∈ t := by
  unfold closesWith at h
  split at h
  · rename_i rest
    split at h
    · rename_i tail htail
      rw [after?_eq_some_iff] at htail
      intro d hd
      have hdrop : d ∈ rest.dropWhile isBlank := htail ▸ List.mem_append_left tail hd
      exact List.mem_cons_of_mem _ ((List.dropWhile_sublist _).subset hdrop)
    · cases h
  · cases h

/-- The comment of a Begin stands in front of what closes it. -/
theorem exists_of_commentBeforeBegin? {t comment : Text} (h : commentBeforeBegin? t = some comment) :
    ∃ rest, t = comment ++ rest ∧ closesWith "Begin" rest = true := by
  induction t generalizing comment with
  | nil => cases h
  | cons c cs ih =>
    simp only [commentBeforeBegin?] at h
    split at h
    · rename_i hcloses
      obtain rfl : [] = comment := by simpa using h
      exact ⟨c :: cs, rfl, hcloses⟩
    · split at h
      · cases h
      · obtain ⟨before, hb, rfl⟩ := Option.map_eq_some_iff.mp h
        obtain ⟨rest, rfl, hcloses⟩ := ih hb
        exact ⟨rest, rfl, hcloses⟩

/-- A comment that opens a block does not close one. -/
theorem closesWith_end_of_begin {t comment : Text} (h : commentBeforeBegin? t = some comment) :
    closesWith "End" (t.dropWhile isBlank) = false := by
  obtain ⟨rest, rfl, hcloses⟩ := exists_of_commentBeforeBegin? h
  have hmem : char 'B' ∈ comment ++ rest :=
    List.mem_append_right _ (mem_of_closesWith hcloses (char 'B') (by decide))
  exact closesWith_dropWhile_eq_false hmem (by decide) (by decide) (by decide)

/-! ## Readers of a line -/

/-- The form of a line is told by the first of its readers that reads it. -/
def LineForm.IsReadBy (tag : Tag) (line : Text) : LineForm → Prop
  | .ending => tag.isEnd line = true
  | .beginning guard => tag.isEnd line = false ∧ tag.begin? line = some guard
  | .marker guard => tag.isEnd line = false ∧ tag.begin? line = none ∧ tag.marker? line = some guard
  | .trailing guard =>
    tag.isEnd line = false ∧ tag.begin? line = none ∧ tag.marker? line = none ∧ tag.trailing? line = some guard
  | .plain => tag.isEnd line = false ∧ tag.begin? line = none ∧ tag.marker? line = none ∧ tag.trailing? line = none

theorem Tag.isReadBy_classify (tag : Tag) (line : Text) : (tag.classify line).IsReadBy tag line := by
  unfold Tag.classify
  cases hend : tag.isEnd line with
  | true => exact hend
  | false =>
    cases hbegin : tag.begin? line with
    | some guard => exact ⟨hend, hbegin⟩
    | none =>
      cases hmarker : tag.marker? line with
      | some guard => exact ⟨hend, hbegin, hmarker⟩
      | none =>
        cases htrailing : tag.trailing? line with
        | some guard => exact ⟨hend, hbegin, hmarker, htrailing⟩
        | none => exact ⟨hend, hbegin, hmarker, htrailing⟩

theorem Tag.isReadBy_of_classify {tag : Tag} {line : Text} {form : LineForm} (h : tag.classify line = form) :
    form.IsReadBy tag line := h ▸ tag.isReadBy_classify line

namespace Tag

variable {tag : Tag}

theorem note?_eq {t : Text} (h : OneLine t) : note? t = some (takeDash t) := by
  cases htake : takeDash t with
  | mk deletion rest =>
    obtain ⟨rfl, -⟩ := takeDash_eq htake
    simp only [note?, htake, untilBreak?_eq fun c hc => h c (List.mem_append_right _ hc), Option.map_some]

/-! ## Forms of a line -/

/-- Marks at the start of a line are found behind blanks. -/
theorem afterIndent_formatNote (tag : Tag) {indent : Text} (hi : allBlank indent = true) (comment : Text) (deletion : Bool)
    (rest : Text) :
    afterIndent (indent ++ (tag.formatNote comment deletion ++ rest)) = tag.formatNote comment deletion ++ rest ∧
      leadingIndent (indent ++ (tag.formatNote comment deletion ++ rest)) = indent := by
  have hhead : ∀ c ∈ (tag.formatNote comment deletion ++ rest).head?, isBlank c = false := by
    intro c h
    cases h
    decide
  have hws : ∀ c ∈ indent, isBlank c = true := by simpa [allBlank] using hi
  exact ⟨afterIndent_append hws hhead, leadingIndent_append hws hhead⟩

/-- A written note is a mark with the dash and the comment behind it. -/
theorem head?_formatNote (hid : tag.IsIdentifier) {comment : Text} {deletion : Bool}
    (hc : NoteFits deletion comment) (rest : Text) (hrest : ∀ c ∈ rest.head?, isWordChar c = false) :
    tag.head? (tag.formatNote comment deletion ++ rest) = some (dash deletion ++ (comment ++ rest)) := by
  refine (head?_eq_some_iff hid).mpr ⟨?_, [char ' '], by decide, ?_⟩
  · cases deletion with
    | true =>
      intro c h
      cases h
      decide
    | false =>
      cases comment with
      | nil => exact hrest
      | cons d comment =>
        intro c h
        cases h
        exact (hc.opens rfl _ rfl).1
  · simp [formatNote, dash, show ("// " : Text) = [char '/', char '/', char ' '] from rfl]

theorem takeDash_note {comment : Text} {deletion : Bool} (hc : NoteFits deletion comment) (rest : Text)
    (hrest : ∀ c ∈ rest.head?, c ≠ char '-') :
    takeDash (dash deletion ++ (comment ++ rest)) = (deletion, comment ++ rest) := by
  refine takeDash_dash fun hd c hmem => ?_
  cases comment with
  | nil => exact hrest c hmem
  | cons d comment => exact (hc.opens hd c hmem).2

theorem oneLine_note {comment : Text} {deletion : Bool} (hc : NoteFits deletion comment) :
    OneLine (dash deletion ++ comment) := by
  refine OneLine.append ?_ hc.oneLine
  cases deletion
  · exact fun c hc => by cases hc
  · exact fun c hc => by
      obtain rfl := List.mem_singleton.mp hc
      decide

theorem oneLine_formatNote (hid : tag.IsIdentifier) {comment : Text} {deletion : Bool}
    (hc : NoteFits deletion comment) : OneLine (tag.formatNote comment deletion) := by
  have htag : OneLine tag.text := by
    intro c hc h
    subst h
    exact hid.not_mem (by decide) hc
  have hmark : OneLine ("// " : Text) := by
    unfold OneLine
    decide
  have := (hmark.append htag).append (oneLine_note hc)
  simpa [formatNote, dash] using this

/-- The comment that opens a block is read back. -/
theorem begin?_formatBegin (hid : tag.IsIdentifier) {indent comment : Text} {deletion : Bool}
    (hi : allBlank indent = true) (hc : NoteFits deletion comment) :
    tag.begin? (tag.formatBegin indent comment deletion) = some ⟨indent, deletion, comment⟩ := by
  obtain ⟨hafter, hlead⟩ := afterIndent_formatNote tag hi comment deletion ": Begin"
  have hhead := head?_formatNote hid hc ": Begin" (by decide)
  have htake := takeDash_note hc ": Begin" (by decide)
  simp only [formatBegin, List.append_assoc, begin?, hafter, hlead, hhead, htake,
    commentBeforeBegin?_append hc.oneLine, Option.map_some]

/-- No Begin is an End. -/
theorem isEnd_of_begin? {line : Text} (h : (tag.begin? line).isSome = true) : tag.isEnd line = false := by
  unfold begin? at h
  unfold isEnd
  cases htail : tag.head? (afterIndent line) with
  | none => rfl
  | some tail =>
    simp only [htail, Option.isSome_map] at h
    obtain ⟨comment, hcomment⟩ := Option.isSome_iff_exists.mp h
    exact closesWith_end_of_begin hcomment

/-- The line that opens a block is read as that. -/
theorem classify_formatBegin (hid : tag.IsIdentifier) {indent comment : Text} {deletion : Bool}
    (hi : allBlank indent = true) (hc : NoteFits deletion comment) :
    tag.classify (tag.formatBegin indent comment deletion) = .beginning ⟨indent, deletion, comment⟩ := by
  have hbegin := begin?_formatBegin hid hi hc
  have hend : tag.isEnd (tag.formatBegin indent comment deletion) = false := isEnd_of_begin? (by simp [hbegin])
  simp [classify, hend, hbegin]

/-- The line that closes a block is read as that. -/
theorem isEnd_formatEnd (hid : tag.IsIdentifier) {indent : Text} (hi : allBlank indent = true) :
    tag.isEnd (tag.formatEnd indent) = true := by
  have hnote : tag.formatEnd indent = indent ++ (tag.formatNote [] false ++ ": End") := by
    simp [formatEnd, formatNote]
  have hfits : NoteFits false [] := ⟨fun c hc => (by cases hc), fun _ c hc => (by cases hc)⟩
  have hhead := head?_formatNote hid hfits ": End" (by decide)
  rw [hnote]
  simp only [isEnd, (afterIndent_formatNote tag hi [] false ": End").1, hhead]
  decide

/-- The comment that guards the next line is read back. -/
theorem marker?_formatMarker (hid : tag.IsIdentifier) {indent comment : Text} {deletion : Bool}
    (hi : allBlank indent = true) (hc : NoteFits deletion comment) :
    tag.marker? (tag.formatMarker indent comment deletion) = some ⟨indent, deletion, comment⟩ := by
  obtain ⟨hafter, hlead⟩ := afterIndent_formatNote tag hi comment deletion []
  have hhead := head?_formatNote hid hc [] (by simp)
  have htake := takeDash_note hc [] (by simp)
  simp only [List.append_nil] at hafter hlead hhead htake
  simp only [formatMarker, marker?, hafter, hlead, hhead, note?_eq (oneLine_note hc), htake, Option.map_some]

/-- The comment that guards the next line is read as that. -/
theorem classify_formatMarker (hid : tag.IsIdentifier) {indent comment : Text} {deletion : Bool}
    (hi : allBlank indent = true) (hc : NoteFits deletion comment) (hopen : Unclosed comment) :
    tag.classify (tag.formatMarker indent comment deletion) = .marker ⟨indent, deletion, comment⟩ := by
  have hafter := (afterIndent_formatNote tag hi comment deletion []).1
  have hhead := head?_formatNote hid hc [] (by simp)
  have htake := takeDash_note hc [] (by simp)
  simp only [List.append_nil] at hafter hhead htake
  have hend : tag.isEnd (tag.formatMarker indent comment deletion) = false := by
    simp only [formatMarker, isEnd, hafter, hhead, htake]
    exact hopen.notEnd
  have hbegin : tag.begin? (tag.formatMarker indent comment deletion) = none := by
    simp only [formatMarker, begin?, hafter, hhead, htake, hopen.notBegin, Option.map_none]
  simp [classify, hend, hbegin, marker?_formatMarker hid hi hc]

/-! ## Trailing guards -/

/-- The characters that may stand between code and the guard behind it. -/
def isGap (c : CodePoint) : Bool := c == char ' ' || c == char '\t'

theorem isBlank_of_isGap {c : CodePoint} (h : isGap c = true) : isBlank c = true := by
  simp only [isGap, Bool.or_eq_true, beq_iff_eq] at h
  rcases h with rfl | rfl <;> decide

/-- Gaps and marks do not begin with a word. -/
theorem head?_gap {gap tail rest : Text} (hgap : ∀ c ∈ gap, isGap c = true) (h : tag.head? tail = some rest) :
    ∀ c ∈ (gap ++ tail).head?, isWordChar c = false := by
  intro c hc
  cases gap with
  | nil =>
    unfold head? at h
    split at h
    · obtain rfl : char '/' = c := by simpa using hc
      decide
    · cases h
  | cons d gap =>
    obtain rfl : d = c := by simpa using hc
    have hd := hgap d List.mem_cons_self
    simp only [isGap, Bool.or_eq_true, beq_iff_eq] at hd
    rcases hd with rfl | rfl <;> decide

theorem trailingGuard?_eq {t : Text} (ht : OneLine t) :
    tag.trailingGuard? t = (tag.head? (t.dropWhile isGap)).map takeDash := by
  have hgap : (fun c : CodePoint => c == char ' ' || c == char '\t') = isGap := rfl
  simp only [trailingGuard?, hgap]
  cases htail : tag.head? (t.dropWhile isGap) with
  | none => rfl
  | some tail =>
    exact note?_eq (ht.of_sublist ((head?_sublist htail).trans (List.dropWhile_sublist _)))

theorem trailing?_eq (c : CodePoint) (cs : Text) :
    tag.trailing? (c :: cs) =
      let here := if isBlank c then none else tag.trailingGuard? cs
      match here with
      | some (deletion, comment) => some ⟨[c], deletion, comment⟩
      | none =>
        if c = '\n' then none else (tag.trailing? cs).map fun g => { g with code := c :: g.code } :=
  (rfl)

/-- On one line, the first guard behind a solid character is the trailing one. -/
theorem trailing?_cons {c : CodePoint} {cs : Text} (h : OneLine (c :: cs)) :
    tag.trailing? (c :: cs) =
      match (if isBlank c then none else tag.head? (cs.dropWhile isGap)) with
      | some tail => some ⟨[c], (takeDash tail).1, (takeDash tail).2⟩
      | none => (tag.trailing? cs).map fun g => { g with code := c :: g.code } := by
  have hcs : OneLine cs := fun d hd => h d (List.mem_cons_of_mem _ hd)
  have hc : c ≠ char '\n' := h c List.mem_cons_self
  rw [trailing?_eq]
  simp only [trailingGuard?_eq hcs, if_neg hc]
  cases isBlank c with
  | true => rfl
  | false => cases tag.head? (cs.dropWhile isGap) <;> rfl

/-- The line has a solid character with a guard behind it where the code ends. -/
theorem trailing?_spec {line : Text} {g : Trailing} (hl : OneLine line)
    (h : tag.trailing? line = some g) :
    ∃ gap tail, line = g.code ++ (gap ++ tail) ∧ (∀ c ∈ gap, isGap c = true) ∧
      (∃ rest, tag.head? tail = some rest ∧ takeDash rest = (g.deletion, g.comment)) ∧
      EndsSolid g.code ∧ tag.trailing? g.code = none := by
  induction line generalizing g with
  | nil => cases h
  | cons c cs ih =>
    have hcs : OneLine cs := fun d hd => hl d (by simp [hd])
    rw [trailing?_cons hl] at h
    split at h
    · rename_i rest hrest
      obtain rfl : _ = g := by simpa using h
      split at hrest
      · cases hrest
      · rename_i hc
        refine ⟨cs.takeWhile isGap, cs.dropWhile isGap, ?_, fun d hd => List.mem_takeWhile_imp hd,
          ⟨rest, hrest, rfl⟩, ⟨c, rfl, by simpa using hc⟩, ?_⟩
        · rw [List.takeWhile_append_dropWhile]
          rfl
        · rw [@trailing?_cons tag c [] fun d hd => hl d (List.mem_cons.mpr (.inl (by simpa using hd)))]
          cases isBlank c <;> rfl
    · rename_i hnone
      obtain ⟨g', hg', rfl⟩ := Option.map_eq_some_iff.mp h
      obtain ⟨gap, tail, rfl, hgap, ⟨rest, hrest, hdash⟩, hsolid, hno⟩ := ih hcs hg'
      refine ⟨gap, tail, rfl, hgap, ⟨rest, hrest, hdash⟩, hsolid.append_left [c], ?_⟩
      have hcode : OneLine (c :: g'.code) := by
        intro d hd
        refine hl d ?_
        rw [← List.cons_append]
        exact List.mem_append_left _ hd
      have hhere : (if isBlank c then none else tag.head? (g'.code.dropWhile isGap)) = none := by
        split
        · rfl
        · rename_i hc
          simp only [hc] at hnone
          rw [(dropWhile_append_of_endsSolid (fun _ => isBlank_of_isGap) hsolid _).1] at hnone
          exact head?_eq_none_of_append (by simpa using hnone) (head?_gap hgap hrest)
      rw [trailing?_cons hcode, hhere, hno]
      rfl

/-- The trailing guard that is written behind code is read as that. -/
theorem trailing?_formatTrailing (hid : tag.IsIdentifier) {code comment : Text} {deletion : Bool}
    (hl : OneLine code) (hsolid : EndsSolid code) (hno : tag.trailing? code = none)
    (hc : NoteFits deletion comment) :
    tag.trailing? (tag.formatTrailing code comment deletion) = some ⟨code, deletion, comment⟩ := by
  have hnote : tag.head? (tag.formatNote comment deletion) = some (dash deletion ++ comment) := by
    simpa using head?_formatNote hid hc [] (by simp)
  have htake : takeDash (dash deletion ++ comment) = (deletion, comment) := by
    simpa using takeDash_note hc [] (by simp)
  have hslash : ∃ rest, tag.formatNote comment deletion = char '/' :: rest := ⟨_, rfl⟩
  have hline : OneLine (tag.formatNote comment deletion) := oneLine_formatNote hid hc
  simp only [formatTrailing, List.append_assoc, List.singleton_append]
  induction code with
  | nil => exact absurd rfl hsolid.ne_nil
  | cons c cs ih =>
    have hrest : OneLine (c :: (cs ++ char ' ' :: tag.formatNote comment deletion)) := by
      intro d hd
      simp only [List.mem_cons, List.mem_append] at hd
      rcases hd with rfl | hd | rfl | hd
      · exact hl d List.mem_cons_self
      · exact hl d (List.mem_cons_of_mem _ hd)
      · decide
      · exact hline d hd
    rw [List.cons_append, trailing?_cons hrest]
    by_cases hcs : cs = []
    · subst hcs
      have hb : isBlank c = false := by
        obtain ⟨d, hd, hb⟩ := hsolid
        obtain rfl : c = d := by simpa using hd
        exact hb
      obtain ⟨rest, hr⟩ := hslash
      have hdrop : (char ' ' :: tag.formatNote comment deletion).dropWhile isGap =
          tag.formatNote comment deletion := by
        rw [hr]
        rfl
      rw [List.nil_append, hdrop, hnote, hb]
      simp [htake]
    · have hs : EndsSolid cs := hsolid.of_cons hcs
      rw [trailing?_cons hl] at hno
      split at hno
      · cases hno
      · rename_i hnone
        have hhere : (if isBlank c then none else
            tag.head? ((cs ++ char ' ' :: tag.formatNote comment deletion).dropWhile isGap)) = none := by
          split
          · rfl
          · rename_i hb
            simp only [hb] at hnone
            obtain ⟨rest, hr⟩ := hslash
            obtain ⟨happ, hs'⟩ := dropWhile_append_of_endsSolid (fun _ => isBlank_of_isGap) hs
              (char ' ' :: tag.formatNote comment deletion)
            rw [happ, hr]
            exact head?_append_guard hid hs' (by simpa using hnone) rest
        rw [hhere, ih (fun d hd => hl d (by simp [hd])) hs (by simpa using hno)]
        rfl

/-! ## Lines without guards -/

/-- A line that carries no guard comment. -/
structure Plain (tag : Tag) (line : Text) : Prop where
  unmarked : tag.head? (afterIndent line) = none
  untrailed : tag.trailing? line = none

theorem marker?_eq {line : Text} (h : OneLine line) :
    tag.marker? line = (tag.head? (afterIndent line)).map fun tail =>
      ⟨leadingIndent line, (takeDash tail).1, (takeDash tail).2⟩ := by
  unfold marker?
  split
  · rename_i tail htail
    rw [note?_eq (h.of_sublist ((head?_sublist htail).trans (List.dropWhile_sublist _))), htail]
    rfl
  · rename_i hnone
    rw [hnone]
    rfl

theorem classify_unmarked {line : Text} (h : tag.head? (afterIndent line) = none) :
    tag.classify line = match tag.trailing? line with
      | some guard => .trailing guard
      | none => .plain := by
  simp only [classify, isEnd, begin?, marker?, h]
  cases tag.trailing? line <;> rfl

theorem classify_eq_plain {line : Text} (h : OneLine line) :
    tag.classify line = .plain ↔ tag.Plain line := by
  constructor
  · intro hplain
    obtain ⟨-, -, hmarker, htrailing⟩ := isReadBy_of_classify hplain
    rw [marker?_eq h] at hmarker
    exact ⟨Option.map_eq_none_iff.mp hmarker, htrailing⟩
  · intro hp
    rw [classify_unmarked hp.unmarked, hp.untrailed]

/-- The line with a written guard behind its code has no comment mark of the tag in front. -/
theorem unmarked_formatTrailing (hid : tag.IsIdentifier) {code : Text} (hsolid : EndsSolid code)
    (h : tag.head? (afterIndent code) = none) (comment : Text) (deletion : Bool) :
    tag.head? (afterIndent (tag.formatTrailing code comment deletion)) = none := by
  obtain ⟨happ, hs⟩ := dropWhile_append_of_endsSolid (fun _ h => h) hsolid
    (char ' ' :: tag.formatNote comment deletion)
  simp only [formatTrailing, List.append_assoc, List.singleton_append, afterIndent, happ]
  exact head?_append_guard hid hs h _

/-- The line with a written guard behind its code is read as that. -/
theorem classify_formatTrailing (hid : tag.IsIdentifier) {code comment : Text} {deletion : Bool}
    (hl : OneLine code) (hsolid : EndsSolid code) (hp : tag.Plain code) (hc : NoteFits deletion comment) :
    tag.classify (tag.formatTrailing code comment deletion) = .trailing ⟨code, deletion, comment⟩ := by
  rw [classify_unmarked (unmarked_formatTrailing hid hsolid hp.unmarked comment deletion),
    trailing?_formatTrailing hid hl hsolid hp.untrailed hc]

/-! ## Parts of a line -/

theorem note?_sublist {t comment : Text} {deletion : Bool} (h : note? t = some (deletion, comment)) :
    comment.Sublist t := by
  cases htake : takeDash t with
  | mk dashed rest =>
    simp only [note?, htake, Option.map_eq_some_iff, Prod.mk.injEq] at h
    obtain ⟨note, hnote, -, rfl⟩ := h
    exact (untilBreak?_sublist hnote).trans (takeDash_sublist htake)

theorem begin?_sublist {line : Text} {g : Opening} (h : tag.begin? line = some g) :
    g.indent.Sublist line ∧ g.comment.Sublist line := by
  unfold begin? at h
  split at h
  · rename_i tail htail
    cases htake : takeDash tail with
    | mk deletion rest =>
      simp only [htake] at h
      obtain ⟨comment, hcomment, rfl⟩ := Option.map_eq_some_iff.mp h
      obtain ⟨more, rfl, -⟩ := exists_of_commentBeforeBegin? hcomment
      have htailLine : tail.Sublist line := (head?_sublist htail).trans (List.dropWhile_sublist _)
      exact ⟨List.takeWhile_sublist _,
        (List.sublist_append_left _ _).trans ((takeDash_sublist htake).trans htailLine)⟩
  · cases h

theorem marker?_sublist {line : Text} {g : Opening} (h : tag.marker? line = some g) :
    g.indent.Sublist line ∧ g.comment.Sublist line := by
  unfold marker? at h
  split at h
  · rename_i tail htail
    obtain ⟨⟨deletion, comment⟩, hnote, rfl⟩ := Option.map_eq_some_iff.mp h
    exact ⟨List.takeWhile_sublist _,
      (note?_sublist hnote).trans ((head?_sublist htail).trans (List.dropWhile_sublist _))⟩
  · cases h

theorem trailing?_sublist {line : Text} {g : Trailing} (h : tag.trailing? line = some g) :
    g.code.Sublist line ∧ g.comment.Sublist line := by
  induction line generalizing g with
  | nil => cases h
  | cons c cs ih =>
    simp only [trailing?_eq] at h
    split at h
    · rename_i deletion comment hhere
      obtain rfl := Option.some.inj h
      refine ⟨(List.nil_sublist cs).cons_cons c, ?_⟩
      have hguard : tag.trailingGuard? cs = some (deletion, comment) := by
        cases hc : isBlank c <;> simp [hc] at hhere
        exact hhere
      unfold trailingGuard? at hguard
      split at hguard
      · rename_i tail htail
        exact ((note?_sublist hguard).trans ((head?_sublist htail).trans (List.dropWhile_sublist _))).cons c
      · cases hguard
    · split at h
      · cases h
      · obtain ⟨found, hfound, rfl⟩ := Option.map_eq_some_iff.mp h
        exact ⟨(ih hfound).1.cons_cons c, (ih hfound).2.cons c⟩

end Tag

/-- The parts of a line that are read in a guard comment. -/
def LineForm.parts : LineForm → List Text
  | .beginning guard | .marker guard => [guard.indent, guard.comment]
  | .trailing guard => [guard.code, guard.comment]
  | .ending | .plain => []

/-- Whatever is read in a line stands in it. -/
theorem LineForm.sublist_of_mem_parts {tag : Tag} {line t : Text} (h : t ∈ (tag.classify line).parts) :
    t.Sublist line := by
  have hpair : ∀ {a b : Text}, a.Sublist line ∧ b.Sublist line → t ∈ [a, b] → t.Sublist line := by
    intro a b hab hmem
    obtain rfl | rfl : t = a ∨ t = b := by simpa using hmem
    · exact hab.1
    · exact hab.2
  have hread := tag.isReadBy_classify line
  cases hform : tag.classify line with
  | ending => simp [hform, LineForm.parts] at h
  | plain => simp [hform, LineForm.parts] at h
  | beginning guard =>
    rw [hform] at h hread
    exact hpair (Tag.begin?_sublist hread.2) h
  | marker guard =>
    rw [hform] at h hread
    exact hpair (Tag.marker?_sublist hread.2.2) h
  | trailing guard =>
    rw [hform] at h hread
    exact hpair (Tag.trailing?_sublist hread.2.2.2) h

namespace Tag

variable {tag : Tag}

/-! ## What was read can be written -/

theorem beginning_fits (hid : tag.IsIdentifier) {line : Text} {g : Opening} (hl : OneLine line)
    (h : tag.classify line = .beginning g) :
    g.indent = leadingIndent line ∧ NoteFits g.deletion g.comment := by
  obtain ⟨-, hbegin⟩ := isReadBy_of_classify h
  unfold begin? at hbegin
  split at hbegin
  · rename_i tail htail
    cases htake : takeDash tail with
    | mk deletion note =>
      simp only [htake] at hbegin
      obtain ⟨comment, hcomment, rfl⟩ := Option.map_eq_some_iff.mp hbegin
      obtain ⟨rest, rfl, -⟩ := exists_of_commentBeforeBegin? hcomment
      have htailLine : tail.Sublist line := (head?_sublist htail).trans (List.dropWhile_sublist _)
      exact ⟨rfl, NoteFits.of_prefix
        (noteFits_of_tail (hl.of_sublist htailLine) ((head?_eq_some_iff hid).mp htail).1 htake)⟩
  · cases hbegin

theorem marker_fits (hid : tag.IsIdentifier) {line : Text} {g : Opening} (hl : OneLine line)
    (h : tag.classify line = .marker g) :
    g.indent = leadingIndent line ∧ NoteFits g.deletion g.comment ∧ Unclosed g.comment := by
  obtain ⟨hend, hbegin, hmarker⟩ := isReadBy_of_classify h
  rw [marker?_eq hl] at hmarker
  obtain ⟨tail, htail, rfl⟩ := Option.map_eq_some_iff.mp hmarker
  have htailLine : tail.Sublist line := (head?_sublist htail).trans (List.dropWhile_sublist _)
  refine ⟨rfl, ?_, ?_, ?_⟩
  · exact noteFits_of_tail (hl.of_sublist htailLine) ((head?_eq_some_iff hid).mp htail).1 rfl
  · simpa [isEnd, htail] using hend
  · simpa [begin?, htail] using hbegin

theorem trailing_fits (hid : tag.IsIdentifier) {line : Text} {g : Trailing} (hl : OneLine line)
    (h : tag.classify line = .trailing g) :
    NoteFits g.deletion g.comment ∧ EndsSolid g.code ∧ tag.Plain g.code := by
  obtain ⟨-, -, hmarker, htrailing⟩ := isReadBy_of_classify h
  rw [marker?_eq hl] at hmarker
  have hhead : tag.head? (afterIndent line) = none := Option.map_eq_none_iff.mp hmarker
  obtain ⟨gap, tail, rfl, hgap, ⟨rest, hrest, hdash⟩, hsolid, hno⟩ := trailing?_spec hl htrailing
  have hrestLine : rest.Sublist (g.code ++ (gap ++ tail)) :=
    ((head?_sublist hrest).trans (List.sublist_append_right _ _)).trans (List.sublist_append_right _ _)
  refine ⟨noteFits_of_tail (hl.of_sublist hrestLine) ((head?_eq_some_iff hid).mp hrest).1 hdash, hsolid, ?_, hno⟩
  unfold afterIndent at hhead ⊢
  rw [(dropWhile_append_of_endsSolid (fun _ h => h) hsolid _).1] at hhead
  exact head?_eq_none_of_append hhead (head?_gap hgap hrest)

end Tag

end Regraft

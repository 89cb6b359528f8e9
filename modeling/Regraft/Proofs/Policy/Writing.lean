import Regraft.Proofs.Policy.References
/-!
# Predicates in writing

A list of predicates is written as it may stand in a rule. What can be written so (`Predicate.IsWritable`) is just what
is ever read: a written list is read as the list that was written, and whatever text a list was read from, it can be
written again.

* `takeNegations_marked`, `isBare_takeNegations`: one mark in front of a text, and any number of them;
* `parsePredicate_eq_ok_iff`: what one predicate is read from;
* `parsePredicates_round_trip`: writing and reading a list.
-/
namespace Regraft

/-! ## Pieces -/

/-- Things that are read from what they are written as are so between separators. -/
theorem mapM_fields_joinWith {ε α : Type} {read : Text → Except ε α} {write : α → Text} {sep : CodePoint} {as : List α}
    (hne : as ≠ []) (hsep : ∀ a ∈ as, sep ∉ write a) (hread : ∀ a ∈ as, read (write a) = .ok a) :
    (fields sep (joinWith [sep] (as.map write))).mapM read = .ok as := by
  rw [fields_joinWith_sep (by simpa using hne) (List.forall_mem_map.mpr hsep), List.mapM_map]
  exact (mapM_eq_ok (f := read ∘ write) (g := id) hread).trans (by rw [List.map_id])

theorem mem_of_mem_fields {sep c : CodePoint} {f t : Text} (hf : f ∈ fields sep t) (hc : c ∈ f) : c ∈ t := by
  have hjoined : c ∈ joinWith [sep] (fields sep t) := mem_joinWith hc hf
  rwa [joinWith_fields] at hjoined

/-! ## Marks -/

/-- A text with an exclamation mark in front if it is negated. -/
def marked (negated : Bool) (t : Text) : Text := if negated then char '!' :: t else t

/-- A text that does not start as if it were negated, and has no blanks at its ends. -/
structure IsBare (t : Text) : Prop where
  ne_nil : t ≠ []
  stripped : strip t = t
  unmarked : t.head? ≠ some (char '!')

section
variable {t : Text} {c : CodePoint}

theorem IsBare.head_not_blank (h : IsBare t) : ∀ c ∈ t.head?, isBlank c = false :=
  h.stripped ▸ head?_trimWhile t

theorem IsBare.last_not_blank (h : IsBare t) : ∀ c ∈ t.getLast?, isBlank c = false :=
  h.stripped ▸ getLast?_trimWhile t

theorem IsBare.exists_not_blank (h : IsBare t) : ∃ c ∈ t, isBlank c = false := by
  have hhead := h.head_not_blank
  obtain ⟨c, rest, rfl⟩ := List.exists_cons_of_ne_nil h.ne_nil
  exact ⟨c, List.mem_cons_self, hhead c rfl⟩

theorem allBlank_eq_false (hmem : c ∈ t) (hc : isBlank c = false) : allBlank t = false :=
  List.all_eq_false.mpr ⟨c, hmem, by simp [hc]⟩

theorem mem_marked (negated : Bool) : c ∈ marked negated t ↔ (negated = true ∧ c = char '!') ∨ c ∈ t := by
  cases negated <;> simp [marked]

/-- A mark in front of a text that has none tells whether it is negated. -/
theorem takeNegations_marked (h : IsBare t) (negated : Bool) : takeNegations (marked negated t) = (t, negated) := by
  have hhead := h.head_not_blank
  have hlast := h.last_not_blank
  have hmark := h.unmarked
  obtain ⟨c, rest, rfl⟩ := List.exists_cons_of_ne_nil h.ne_nil
  have hblank : isBlank c = false := hhead c rfl
  have hother : c ≠ char '!' := fun heq => hmark (congrArg some heq)
  have hexclamation : isBlank (char '!') = false := by decide
  cases negated with
  | false => simp [takeNegations, marked, h.stripped, hblank, hother]
  | true =>
    have hstrip : strip (char '!' :: c :: rest) = char '!' :: c :: rest := by
      refine trimWhile_eq_self (fun d hd => ?_) fun d hd => ?_
      · rwa [← Option.some.inj hd]
      · rw [List.getLast?_cons_cons] at hd
        exact hlast d hd
    simp [takeNegations, marked, hstrip, hblank, hother]

/-- Whatever is left of a text without the negations in front of it is bare. -/
theorem isBare_takeNegations (h : (takeNegations t).1 ≠ []) : IsBare (takeNegations t).1 := by
  have hhead := head?_dropWhile_not (p := fun c => c == char '!' || isBlank c) (strip t)
  obtain ⟨front, hfront⟩ := List.dropWhile_suffix (l := strip t) fun c => c == char '!' || isBlank c
  change ∀ c ∈ (takeNegations t).1.head?, (c == char '!' || isBlank c) = false at hhead
  change front ++ (takeNegations t).1 = strip t at hfront
  refine ⟨h, trimWhile_eq_self (fun c hc => (Bool.or_eq_false_iff.mp (hhead c hc)).2) fun c hc => ?_, fun heq => ?_⟩
  -- What is left is an end of the stripped text.
  · refine getLast?_trimWhile t c ?_
    change c ∈ (strip t).getLast?
    rwa [← hfront, List.getLast?_append_of_ne_nil _ h]
  · cases hhead _ heq

theorem mem_of_mem_takeNegations (h : c ∈ (takeNegations t).1) : c ∈ t := by
  obtain ⟨front, rest, ht, -⟩ := exists_takeNegations_eq t
  rw [ht]
  exact List.mem_append_right _ (List.mem_append_left _ h)

end

/-! ## Operands -/

namespace Operand

/-- An operand in writing. -/
def written (o : Operand) : Text := marked o.negated o.text

/-- An operand that can be written into a list of predicates. -/
structure IsWritable (o : Operand) : Prop where
  bare : IsBare o.text
  noComma : char ',' ∉ o.text
  noBar : char '|' ∉ o.text

variable {o : Operand} {predicate raw : Text}

theorem not_mem_written {sep : CodePoint} (hsep : sep ≠ char '!') (h : sep ∉ o.text) : sep ∉ o.written := by
  rw [written, mem_marked]
  exact not_or.mpr ⟨fun hmark => hsep hmark.2, h⟩

/-- An operand is read from what it is written as. -/
theorem IsWritable.parseOperand_written (h : o.IsWritable) (predicate : Text) :
    parseOperand predicate o.written = .ok o := by
  have hparts := takeNegations_marked h.bare o.negated
  obtain ⟨text, negated⟩ := o
  obtain ⟨c, rest, rfl⟩ := List.exists_cons_of_ne_nil h.bare.ne_nil
  rw [parseOperand, written, hparts]

/-- An operand that was read from a piece between separators can be written. -/
theorem isWritable_of_parseOperand (h : parseOperand predicate raw = .ok o) (hcomma : char ',' ∉ raw)
    (hbar : char '|' ∉ raw) : o.IsWritable := by
  have htext := text_of_parseOperand h
  have hne : (takeNegations raw).1 ≠ [] := by
    intro hnil
    obtain ⟨negated, hparts⟩ : ∃ negated, takeNegations raw = ([], negated) := ⟨_, Prod.ext hnil rfl⟩
    simp [parseOperand, hparts] at h
  refine ⟨?_, ?_, ?_⟩ <;> rw [htext]
  · exact isBare_takeNegations hne
  · exact fun hmem => hcomma (mem_of_mem_takeNegations hmem)
  · exact fun hmem => hbar (mem_of_mem_takeNegations hmem)

end Operand

/-! ## Predicates -/

namespace PredicateKind

theorem isBare_word (kind : PredicateKind) : IsBare kind.word := by
  cases kind <;> exact ⟨by decide, by decide, by decide⟩

theorem ofWord?_word (kind : PredicateKind) : ofWord? kind.word = some kind := by
  cases kind <;> decide

/-- No separator stands in the name of a kind. -/
theorem not_separator_of_mem_word (kind : PredicateKind) (negated : Bool) :
    ∀ c ∈ marked negated kind.word, c ≠ char '|' ∧ c ≠ char ':' := by
  cases kind <;> cases negated <;> decide

end PredicateKind

namespace Predicate

/-- A predicate in writing. -/
def written (p : Predicate) : Text :=
  if p.operands = [] then marked p.negated p.kind.word
  else marked p.negated p.kind.word ++ char ':' :: joinWith [','] (p.operands.map Operand.written)

/-- A predicate that can be written into a list: its operands can, it has some if its kind takes any, and those of a
`Conjunctions` directive are not negated, and are known names or hold the opening of a reference to a variable. -/
structure IsWritable (p : Predicate) : Prop where
  operand : ∀ o ∈ p.operands, o.IsWritable
  needed : p.operands = [] ↔ p.kind.takesNoOperands = true
  target : p.kind = .conjunctions → ∀ o ∈ p.operands,
    o.negated = false ∧ (occursIn ['$', '\x7b'] o.text = true ∨ o.text ∈ conjunctionNames)

variable {p : Predicate} {value chunk : Text}

theorem isTarget_iff {o : Operand} : o.isTarget = true ↔
    o.negated = false ∧ (occursIn ['$', '\x7b'] o.text = true ∨ o.text ∈ conjunctionNames) := by
  simp [Operand.isTarget]

/-- The operands are those that the kind needs. -/
theorem check_eq_ok_iff : p.check = .ok () ↔
    (p.operands = [] ↔ p.kind.takesNoOperands = true) ∧
      (p.kind = .conjunctions → ∀ o ∈ p.operands, o.isTarget = true) := by
  have htargets : (∀ o ∈ p.operands, o.isTarget = true) ↔ (p.operands.find? fun o => !o.isTarget) = none := by
    simp [List.find?_eq_none]
  rw [htargets]
  simp only [check, throw, throwThe, MonadExceptOf.throw, bind, Except.bind, pure, Except.pure]
  -- Each of the three guards of the check asks about one of these.
  cases hfind : p.operands.find? fun o => !o.isTarget <;> by_cases hnone : p.operands = [] <;>
    cases p.kind.takesNoOperands <;> simp [hnone]

/-- What is in front of the first colon of a text, and what is behind it. -/
theorem cutAtColon_eq {front : Text} (h : ∀ c ∈ front, c ≠ char ':') (back : Text) :
    cutAtColon front = (front, []) ∧ cutAtColon (front ++ char ':' :: back) = (front, back) := by
  have hfront : ∀ c ∈ front, (c == char ':') = false := fun c hc => beq_false_of_ne (h c hc)
  constructor
  · cases hcut : cut? (· == ':') front with
    | none => rw [cutAtColon, hcut, Option.getD_none]
    | some parts =>
      obtain ⟨-, c, hc, rfl⟩ := eq_of_cut?_eq_some hcut
      rw [hfront c (by simp)] at hc
      cases hc
  · rw [cutAtColon, cut?_append hfront rfl, Option.getD_some]

theorem mem_of_mem_cutAtColon {t : Text} {c : CodePoint} (h : c ∈ (cutAtColon t).2) : c ∈ t := by
  cases hcut : cut? (· == ':') t with
  | none =>
    rw [cutAtColon, hcut] at h
    cases h
  | some parts =>
    rw [cutAtColon, hcut] at h
    obtain ⟨-, d, -, rfl⟩ := eq_of_cut?_eq_some hcut
    exact List.mem_append_right _ (List.mem_cons_of_mem _ h)

/-- The operands behind the colon of a predicate. -/
def readOperands (chunk : Text) : Except PredicateFault (List Operand) :=
  if allBlank (cutAtColon chunk).2 then .ok [] else (fields ',' (cutAtColon chunk).2).mapM (parseOperand chunk)

theorem parsePredicate_of_kind {kind : PredicateKind} (value : Text) (hblank : allBlank chunk = false)
    (hkind : PredicateKind.ofWord? (takeNegations (cutAtColon chunk).1).1 = some kind) :
    parsePredicate value chunk = readOperands chunk >>= fun operands =>
      check ⟨kind, operands, (takeNegations (cutAtColon chunk).1).2⟩ >>= fun _ =>
        .ok ⟨kind, operands, (takeNegations (cutAtColon chunk).1).2⟩ := by
  simp only [parsePredicate, hblank, hkind, readOperands, Bool.false_eq_true, if_false]
  split <;> rfl

/-- What a predicate is read from: the name of its kind and, behind a colon, the operands, if the kind needs any. -/
theorem parsePredicate_eq_ok_iff : parsePredicate value chunk = .ok p ↔
    allBlank chunk = false ∧
      PredicateKind.ofWord? (takeNegations (cutAtColon chunk).1).1 = some p.kind ∧
        (takeNegations (cutAtColon chunk).1).2 = p.negated ∧
          readOperands chunk = .ok p.operands ∧ p.check = .ok () := by
  constructor
  · intro h
    cases hblank : allBlank chunk with
    | true => simp [parsePredicate, hblank, throw, throwThe, MonadExceptOf.throw, bind, Except.bind] at h
    | false =>
      cases hkind : PredicateKind.ofWord? (takeNegations (cutAtColon chunk).1).1 with
      | none => simp [parsePredicate, hblank, hkind, throw, throwThe, MonadExceptOf.throw] at h
      | some kind =>
        rw [parsePredicate_of_kind value hblank hkind] at h
        obtain ⟨operands, hoperands, h⟩ := bind_eq_ok.mp h
        obtain ⟨_, hcheck, h⟩ := bind_eq_ok.mp h
        obtain rfl := Except.ok.inj h
        exact ⟨rfl, rfl, rfl, hoperands, hcheck⟩
  · rintro ⟨hblank, hkind, hnegated, hoperands, hcheck⟩
    rw [parsePredicate_of_kind value hblank hkind, hnegated]
    exact bind_eq_ok.mpr ⟨_, hoperands, bind_eq_ok.mpr ⟨(), hcheck, rfl⟩⟩

theorem readOperands_written (h : p.IsWritable) :
    (cutAtColon p.written).1 = marked p.negated p.kind.word ∧ readOperands p.written = .ok p.operands := by
  have hword : ∀ c ∈ marked p.negated p.kind.word, c ≠ char ':' :=
    fun c hc => (p.kind.not_separator_of_mem_word p.negated c hc).2
  by_cases hnone : p.operands = []
  · have hwritten : p.written = marked p.negated p.kind.word := if_pos hnone
    have hcut := (cutAtColon_eq hword []).1
    rw [readOperands, hwritten, hcut, hnone]
    exact ⟨rfl, rfl⟩
  · have hwritten : p.written = _ := if_neg hnone
    have hcut := (cutAtColon_eq hword (joinWith [','] (p.operands.map Operand.written))).2
    obtain ⟨o, ho⟩ := List.exists_mem_of_ne_nil _ hnone
    obtain ⟨c, hc, hblank⟩ := (h.operand o ho).bare.exists_not_blank
    have hsome : allBlank (joinWith [','] (p.operands.map Operand.written)) = false :=
      allBlank_eq_false (mem_joinWith ((mem_marked _).mpr (.inr hc)) (List.mem_map_of_mem ho)) hblank
    rw [readOperands, hwritten, hcut]
    refine ⟨rfl, ?_⟩
    simp only [hsome, Bool.false_eq_true, if_false]
    exact mapM_fields_joinWith hnone (fun o ho => Operand.not_mem_written (by decide) (h.operand o ho).noComma)
      fun o ho => (h.operand o ho).parseOperand_written _

/-- A predicate is read from what it is written as. -/
theorem IsWritable.parsePredicate_written (h : p.IsWritable) (value : Text) :
    parsePredicate value p.written = .ok p := by
  obtain ⟨hhead, hoperands⟩ := readOperands_written h
  have hparts := takeNegations_marked p.kind.isBare_word p.negated
  obtain ⟨c, hc, hblank⟩ := p.kind.isBare_word.exists_not_blank
  have hmem : c ∈ p.written := by
    unfold written
    split
    · exact (mem_marked _).mpr (.inr hc)
    · exact List.mem_append_left _ ((mem_marked _).mpr (.inr hc))
  rw [parsePredicate_eq_ok_iff]
  refine ⟨allBlank_eq_false hmem hblank, ?_, ?_, hoperands, ?_⟩
  · rw [hhead, hparts, p.kind.ofWord?_word]
  · rw [hhead, hparts]
  · exact check_eq_ok_iff.mpr ⟨h.needed, fun hkind o ho => isTarget_iff.mpr (h.target hkind o ho)⟩

/-- The bar between predicates stands in none of them. -/
theorem IsWritable.bar_not_mem_written (h : p.IsWritable) : char '|' ∉ p.written := by
  have hword : char '|' ∉ marked p.negated p.kind.word :=
    fun hmem => (p.kind.not_separator_of_mem_word p.negated _ hmem).1 rfl
  unfold written
  split
  · exact hword
  · rw [List.mem_append, List.mem_cons]
    refine not_or.mpr ⟨hword, not_or.mpr ⟨by decide, fun hmem => ?_⟩⟩
    rcases exists_of_mem_joinWith hmem with hmem | ⟨_, hname, hmem⟩
    · cases List.mem_singleton.mp hmem
    · obtain ⟨o, ho, rfl⟩ := List.mem_map.mp hname
      exact Operand.not_mem_written (by decide) (h.operand o ho).noBar hmem

/-- A predicate that was read from a piece between bars can be written. -/
theorem isWritable_of_parsePredicate (h : parsePredicate value chunk = .ok p) (hbar : char '|' ∉ chunk) :
    p.IsWritable := by
  rw [parsePredicate_eq_ok_iff] at h
  obtain ⟨-, -, -, hoperands, hcheck⟩ := h
  obtain ⟨hneeded, htarget⟩ := check_eq_ok_iff.mp hcheck
  refine ⟨fun o ho => ?_, hneeded, fun hkind o ho => isTarget_iff.mp (htarget hkind o ho)⟩
  unfold readOperands at hoperands
  split at hoperands
  · rw [← Except.ok.inj hoperands] at ho
    cases ho
  · obtain ⟨raw, hraw, hparse⟩ := exists_of_mem_mapM hoperands ho
    exact Operand.isWritable_of_parseOperand hparse (not_mem_of_mem_fields raw hraw)
      fun hmem => hbar (mem_of_mem_cutAtColon (mem_of_mem_fields hraw hmem))

end Predicate

/-! ## Lists of predicates -/

/-- A list of predicates in writing. -/
def writtenPredicates (ps : List Predicate) : Text := joinWith ['|'] (ps.map Predicate.written)

theorem parsePredicates_written {ps : List Predicate} (hne : ps ≠ []) (h : ∀ p ∈ ps, p.IsWritable) :
    parsePredicates (writtenPredicates ps) = .ok ps :=
  mapM_fields_joinWith hne (fun p hp => (h p hp).bar_not_mem_written) fun p hp => (h p hp).parsePredicate_written _

theorem isWritable_of_parsePredicates {value : Text} {ps : List Predicate} (h : parsePredicates value = .ok ps) :
    ps ≠ [] ∧ ∀ p ∈ ps, p.IsWritable := by
  constructor
  · rintro rfl
    have hlength := (forall₂_of_mapM h).length_eq
    exact fields_ne_nil _ _ (List.length_eq_zero_iff.mp hlength)
  · intro p hp
    obtain ⟨chunk, hchunk, hparse⟩ := exists_of_mem_mapM h hp
    exact Predicate.isWritable_of_parsePredicate hparse (not_mem_of_mem_fields chunk hchunk)

/-- A list of predicates that can be written is read as it was written, and every list that is read, from whatever text,
can be written and is read again. -/
theorem parsePredicates_round_trip :
    (∀ ps : List Predicate, ps ≠ [] → (∀ p ∈ ps, p.IsWritable) → parsePredicates (writtenPredicates ps) = .ok ps) ∧
      ∀ value ps, parsePredicates value = .ok ps →
        ps ≠ [] ∧ (∀ p ∈ ps, p.IsWritable) ∧ parsePredicates (writtenPredicates ps) = .ok ps := by
  refine ⟨fun ps => parsePredicates_written, fun value ps h => ?_⟩
  obtain ⟨hne, hwritable⟩ := isWritable_of_parsePredicates h
  exact ⟨hne, hwritable, parsePredicates_written hne hwritable⟩

/-- Predicates with operands of all sorts, and one without. -/
def samplePredicates : List Predicate :=
  [⟨.nameMatches, [⟨"*.cpp", false⟩, ⟨"*.h", true⟩], true⟩,
   ⟨.conjunctions, [⟨"Root", false⟩, ⟨"$\x7bKIND\x7d", false⟩], false⟩, ⟨.never, [], false⟩]

/-- The sample is read from a text with blanks and more marks than it takes, and from what it is written as. -/
theorem parsePredicates_round_trip_sample :
    parsePredicates " ! !!NameMatches : *.cpp , ! *.h|Conjunctions:Root,$\x7bKIND\x7d | Never: " =
        .ok samplePredicates ∧
      (∀ p ∈ samplePredicates, p.IsWritable) ∧
        writtenPredicates samplePredicates = "!NameMatches:*.cpp,!*.h|Conjunctions:Root,$\x7bKIND\x7d|Never" ∧
          parsePredicates (writtenPredicates samplePredicates) = .ok samplePredicates := by
  have hread : parsePredicates " ! !!NameMatches : *.cpp , ! *.h|Conjunctions:Root,$\x7bKIND\x7d | Never: " =
      .ok samplePredicates := by decide
  obtain ⟨hne, hwritable, -⟩ := parsePredicates_round_trip.2 _ _ hread
  exact ⟨hread, hwritable, by decide, parsePredicates_round_trip.1 _ hne hwritable⟩

end Regraft

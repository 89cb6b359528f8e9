import Regraft.Policy.Predicate
import Regraft.Proofs.Fallible
import Regraft.Proofs.Store.Key
import Regraft.Proofs.Text.Scan
/-!
# References of texts and of their parts

A reference reaches from its dollar sign to the next closing brace (`partsFrom_written`, `partsFrom_cons`), so a text is
read piece by piece (`reference_induction`). What is behind a separator refers to what the whole text refers to, unless the
separator stands in the name of a reference: then it cuts off the end of that name (`mem_referencesIn_behind`).

So the operands of a list of predicates refer to the names that the list refers to as it is written, or to ends of
them that a separator cuts off (`Yields.of_parsePredicates`).
-/
namespace Regraft

/-! ## Cutting -/

section
variable {p : CodePoint → Bool} {t front back : Text}

theorem eq_of_cut?_eq_some (h : cut? p t = some (front, back)) :
    (∀ d ∈ front, p d = false) ∧ ∃ c, p c = true ∧ t = front ++ c :: back := by
  induction t generalizing front with
  | nil => cases h
  | cons d t ih =>
    rw [cut?] at h
    cases hd : p d with
    | true =>
      simp only [hd, if_true, Option.some.injEq, Prod.mk.injEq] at h
      obtain ⟨rfl, rfl⟩ := h
      exact ⟨fun e he => absurd he List.not_mem_nil, d, hd, rfl⟩
    | false =>
      simp only [hd, Bool.false_eq_true, if_false] at h
      obtain ⟨⟨a, b⟩, hab, heq⟩ := Option.map_eq_some_iff.mp h
      obtain ⟨rfl, rfl⟩ := Prod.mk.inj heq
      obtain ⟨hfront, c, hc, rfl⟩ := ih hab
      exact ⟨List.forall_mem_cons.mpr ⟨hd, hfront⟩, c, hc, rfl⟩

end

/-! ## Pieces of a text -/

/-- A text opens a reference that is closed. -/
def OpensReference (t : Text) : Prop := ∃ rest, t = char '$' :: char '{' :: rest ∧ char '}' ∈ rest

/-- A reference in writing, with what is behind it. -/
def written (name rest : Text) : Text := char '$' :: char '{' :: (name ++ char '}' :: rest)

theorem OpensReference.eq_written {t : Text} (h : OpensReference t) :
    ∃ name rest, char '}' ∉ name ∧ t = written name rest := by
  obtain ⟨u, rfl, hclosed⟩ := h
  obtain ⟨name, rest, rfl, hname⟩ := List.eq_append_cons_of_mem hclosed
  exact ⟨name, rest, hname, rfl⟩

theorem partsFrom_written {name : Text} (h : char '}' ∉ name) (fuel : Nat) (rest : Text) :
    partsFrom (fuel + 1) (written name rest) = .reference name :: partsFrom fuel rest := by
  have hcut : cut? (· == '}') (name ++ char '}' :: rest) = some (name, rest) :=
    cut?_append (fun d hd => beq_false_of_ne fun heq => h (heq ▸ hd)) rfl
  simp only [written, partsFrom, hcut]

theorem partsFrom_cons {c : CodePoint} {t : Text} (h : ¬OpensReference (c :: t)) (fuel : Nat) :
    partsFrom (fuel + 1) (c :: t) = .char c :: partsFrom fuel t := by
  rw [partsFrom.eq_def]
  split
  · cases ‹fuel + 1 = 0›
  · cases ‹c :: t = []›
  · rename_i rest heq
    obtain ⟨rfl, rfl⟩ := List.cons.inj heq
    split
    · rename_i hcut
      obtain ⟨-, d, hd, rfl⟩ := eq_of_cut?_eq_some hcut
      exact absurd ⟨_, rfl, by simp [eq_of_beq hd]⟩ h
    · simp_all
  · simp_all

/-- A text has no more pieces than characters, so more fuel makes no difference. -/
theorem partsFrom_eq {t : Text} {fuel : Nat} (h : t.length ≤ fuel) : partsFrom fuel t = partsOf t := by
  induction hlen : t.length using Nat.strongRecOn generalizing t fuel with
  | ind k ih =>
    subst hlen
    cases t with
    | nil => cases fuel <;> rfl
    | cons c t =>
      obtain ⟨fuel, rfl⟩ : ∃ n, fuel = n + 1 := ⟨fuel - 1, by rw [List.length_cons] at h; omega⟩
      rw [List.length_cons] at h ih
      rw [partsOf, List.length_cons]
      by_cases hopens : OpensReference (c :: t)
      · obtain ⟨name, rest, hname, heq⟩ := hopens.eq_written
        have hshort : rest.length < t.length := by
          have hlength := congrArg List.length heq
          simp only [written, List.length_cons, List.length_append] at hlength
          omega
        rw [heq, partsFrom_written hname, partsFrom_written hname, ih _ (by omega) (by omega) rfl,
          ih _ (by omega) (by omega) rfl]
      · rw [partsFrom_cons hopens, partsFrom_cons hopens, ih _ (by omega) (by omega) rfl, partsOf]

@[simp] theorem referencesIn_nil : referencesIn [] = [] := rfl

theorem referencesIn_written {name : Text} (h : char '}' ∉ name) (rest : Text) :
    referencesIn (written name rest) = name :: referencesIn rest := by
  have hlength : (written name rest).length = name.length + rest.length + 2 + 1 := by
    simp only [written, List.length_append, List.length_cons]
    omega
  rw [referencesIn, partsOf, hlength, partsFrom_written h, partsFrom_eq (by omega), List.filterMap_cons]
  rfl

theorem referencesIn_cons {c : CodePoint} {t : Text} (h : ¬OpensReference (c :: t)) :
    referencesIn (c :: t) = referencesIn t := by
  rw [referencesIn, partsOf, List.length_cons, partsFrom_cons h, partsFrom_eq (Nat.le_refl _), List.filterMap_cons]
  rfl

/-- A text is empty, starts with a reference, or starts with a character that opens none. -/
theorem reference_induction {P : Text → Prop} (nil : P [])
    (reference : ∀ name rest, char '}' ∉ name → P rest → P (written name rest))
    (character : ∀ c t, ¬OpensReference (c :: t) → P t → P (c :: t)) (t : Text) : P t := by
  induction hlen : t.length using Nat.strongRecOn generalizing t with
  | ind k ih =>
    subst hlen
    cases t with
    | nil => exact nil
    | cons c t =>
      by_cases hopens : OpensReference (c :: t)
      · obtain ⟨name, rest, hname, heq⟩ := hopens.eq_written
        have hlength := congrArg List.length heq
        simp only [written, List.length_cons, List.length_append] at hlength
        rw [heq]
        exact reference name rest hname (ih rest.length (by rw [List.length_cons]; omega) rest rfl)
      · exact character c t hopens (ih t.length (by rw [List.length_cons]; omega) t rfl)

/-! ## References of parts -/

section
variable {name t front back rest : Text} {sep : CodePoint}

theorem referencesIn_append_of_not_mem (h : char '$' ∉ front) : referencesIn (front ++ back) = referencesIn back := by
  induction front with
  | nil => rfl
  | cons c front ih =>
    obtain ⟨hc, hfront⟩ := not_or.mp (mt List.mem_cons.mpr h)
    have hopens : ¬OpensReference (c :: (front ++ back)) := by
      rintro ⟨rest, heq, -⟩
      exact hc (List.cons.inj heq).1.symm
    exact (referencesIn_cons hopens).trans (ih hfront)

theorem referencesIn_eq_nil (h : char '}' ∉ t) : referencesIn t = [] := by
  induction t using reference_induction with
  | nil => rfl
  | reference name rest hname ih => exact absurd (by simp [written]) h
  | character c t hopens ih =>
    rw [referencesIn_cons hopens]
    exact ih fun hmem => h (List.mem_cons_of_mem c hmem)

/-- More text adds references behind those there are. -/
theorem referencesIn_append_left (t rest : Text) : referencesIn t <+: referencesIn (t ++ rest) := by
  induction t using reference_induction with
  | nil => exact List.nil_prefix
  | reference name t hname ih =>
    have happend : written name t ++ rest = written name (t ++ rest) := by simp [written]
    rw [happend, referencesIn_written hname, referencesIn_written hname]
    exact (List.prefix_cons_inj name).mpr ih
  | character c t hopens ih =>
    rw [referencesIn_cons hopens]
    by_cases hlater : OpensReference (c :: (t ++ rest))
    · -- what starts here is closed behind `t`, so nothing in `t` is
      have hopen : char '}' ∉ t := by
        obtain ⟨u, heq, -⟩ := hlater
        obtain ⟨rfl, htail⟩ := List.cons.inj heq
        cases t with
        | nil => exact List.not_mem_nil
        | cons d t =>
          obtain ⟨rfl, -⟩ := List.cons.inj htail
          exact fun hmem => hopens ⟨t, rfl, by simpa using hmem⟩
      rw [referencesIn_eq_nil hopen]
      exact List.nil_prefix
    · exact (referencesIn_cons hlater).symm ▸ ih

/-- A text with a closing brace refers to what the rest behind the first one refers to, and at most to the name in front
of the brace. -/
theorem mem_referencesIn_closed (hfront : char '}' ∉ front) (h : name ∈ referencesIn (front ++ char '}' :: rest)) :
    name ∈ referencesIn rest ∨ ∃ before, front = before ++ char '$' :: char '{' :: name := by
  induction front with
  | nil =>
    have hopens : ¬OpensReference (char '}' :: rest) := by
      rintro ⟨u, heq, -⟩
      cases (List.cons.inj heq).1
    exact .inl (referencesIn_cons hopens ▸ h)
  | cons c front ih =>
    have hrest : char '}' ∉ front := fun hmem => hfront (List.mem_cons_of_mem c hmem)
    by_cases hopens : OpensReference (c :: (front ++ char '}' :: rest))
    · obtain ⟨u, heq, -⟩ := hopens
      obtain ⟨rfl, htail⟩ := List.cons.inj heq
      cases front with
      | nil => cases (List.cons.inj htail).1
      | cons d front =>
        obtain ⟨rfl, -⟩ := List.cons.inj htail
        have hname : char '}' ∉ front := fun hmem => hrest (List.mem_cons_of_mem _ hmem)
        have hrefer : referencesIn (char '$' :: char '{' :: (front ++ char '}' :: rest)) = front :: referencesIn rest :=
          referencesIn_written hname rest
        rcases List.mem_cons.mp (hrefer ▸ h) with rfl | h
        · exact .inr ⟨[], rfl⟩
        · exact .inl h
    · refine (ih hrest (referencesIn_cons hopens ▸ h)).imp_right fun hbefore => ?_
      obtain ⟨before, rfl⟩ := hbefore
      exact ⟨c :: before, rfl⟩

/-- A character in none of the marks of a reference. -/
structure IsSeparator (sep : CodePoint) : Prop where
  ne_dollar : sep ≠ char '$'
  ne_open : sep ≠ char '{'
  ne_close : sep ≠ char '}'

/-- A separator is behind the reference that a text starts with, or in its name. -/
theorem IsSeparator.behind_or_in (hsep : IsSeparator sep) (h : front ++ sep :: back = written name rest) :
    (∃ front', rest = front' ++ sep :: back) ∨
      ∃ a b, name = a ++ sep :: b ∧ back = b ++ char '}' :: rest := by
  match front with
  | [] => exact absurd (List.cons.inj h).1 hsep.ne_dollar
  | [_] => exact absurd (List.cons.inj (List.cons.inj h).2).1 hsep.ne_open
  | _ :: _ :: front =>
    have htail : front ++ sep :: back = name ++ char '}' :: rest := (List.cons.inj (List.cons.inj h).2).2
    rcases List.append_eq_append_iff.mp htail with ⟨a, rfl, hback⟩ | ⟨a, rfl, hrest⟩
    · cases a with
      | nil => exact absurd (List.cons.inj hback).1 hsep.ne_close
      | cons c b =>
        obtain ⟨rfl, rfl⟩ := List.cons.inj hback
        exact .inr ⟨front, b, rfl, rfl⟩
    · cases a with
      | nil => exact absurd (List.cons.inj hrest).1.symm hsep.ne_close
      | cons c a => exact .inl ⟨a, (List.cons.inj hrest).2⟩

/-- What is behind a separator refers to what the whole text refers to, unless the separator stands in the name of a
reference, which then ends as the reference behind the separator does. -/
theorem mem_referencesIn_behind (hsep : IsSeparator sep) (h : name ∈ referencesIn back) (front : Text) :
    name ∈ referencesIn (front ++ sep :: back) ∨
      ∃ a b, a ++ sep :: b ++ char '$' :: char '{' :: name ∈ referencesIn (front ++ sep :: back) := by
  generalize ht : front ++ sep :: back = t
  induction t using reference_induction generalizing front with
  | nil => simp at ht
  | reference whole rest hwhole ih =>
    rw [referencesIn_written hwhole]
    rcases hsep.behind_or_in ht with ⟨front', hrest⟩ | ⟨a, b, rfl, rfl⟩
    · rcases ih front' hrest.symm with h | ⟨a, b, h⟩
      · exact .inl (List.mem_cons_of_mem _ h)
      · exact .inr ⟨a, b, List.mem_cons_of_mem _ h⟩
    · have hb : char '}' ∉ b := fun hmem => hwhole (by simp [hmem])
      rcases mem_referencesIn_closed hb h with h | ⟨before, rfl⟩
      · exact .inl (List.mem_cons_of_mem _ h)
      · exact .inr ⟨a, before, by simp⟩
  | character c t hopens ih =>
    rw [referencesIn_cons hopens]
    cases front with
    | nil =>
      obtain ⟨-, rfl⟩ := List.cons.inj ht
      exact .inl h
    | cons d front => exact ih front (List.cons.inj ht).2

end

/-! ## References of operands -/

/-- A separator of predicates or operands cuts off the end of a name: in a list of operands, a reference to `a,${b` is cut
into `${a` and a reference to `b`. -/
def CutsOff (whole name : Text) : Prop :=
  ∃ sep, (sep = char '|' ∨ sep = char ',') ∧ ∃ a b, whole = a ++ sep :: b ++ char '$' :: char '{' :: name

theorem CutsOff.append {whole name : Text} (h : CutsOff whole name) (a : Text) : CutsOff (a ++ whole) name := by
  obtain ⟨sep, hsep, b, c, rfl⟩ := h
  exact ⟨sep, hsep, a ++ b, c, by simp⟩

/-- A name is one of some names, or cut off from one of them. -/
def Yields (names : List Text) (name : Text) : Prop := name ∈ names ∨ ∃ whole ∈ names, CutsOff whole name

section
variable {t name : Text}

theorem Yields.mono {names others : List Text} (h : Yields names name) (hsub : names ⊆ others) : Yields others name :=
  h.imp (fun h => hsub h) fun ⟨whole, hwhole, hcuts⟩ => ⟨whole, hsub hwhole, hcuts⟩

/-- A piece stands at the start of a text or behind a separator. -/
theorem eq_of_mem_fields {sep : CodePoint} {f : Text} (h : f ∈ fields sep t) :
    ∃ front rest, t = front ++ f ++ rest ∧ (front = [] ∨ ∃ a, front = a ++ [sep]) := by
  obtain ⟨before, behind, hsplit⟩ := List.append_of_mem h
  have hjoin := joinWith_fields sep t
  rw [hsplit] at hjoin
  have hrest : ∃ rest, joinWith [sep] (f :: behind) = f ++ rest := by
    cases behind with
    | nil => exact ⟨[], by simp [joinWith]⟩
    | cons g behind => exact ⟨sep :: joinWith [sep] (g :: behind), by simp [joinWith]⟩
  obtain ⟨rest, hrest⟩ := hrest
  cases before with
  | nil => exact ⟨[], rest, by rw [← hjoin, List.nil_append, hrest]; simp, .inl rfl⟩
  | cons g before =>
    rw [joinWith_append (List.cons_ne_nil _ _) (List.cons_ne_nil _ _), hrest] at hjoin
    exact ⟨joinWith [sep] (g :: before) ++ [sep], rest, by rw [← hjoin]; simp, .inr ⟨_, rfl⟩⟩

/-- A text yields what the pieces between its separators yield. -/
theorem Yields.of_field {sep : CodePoint} (hsep : sep = char '|' ∨ sep = char ',') {f : Text} (hf : f ∈ fields sep t)
    (h : Yields (referencesIn f) name) : Yields (referencesIn t) name := by
  have hplain : IsSeparator sep := by
    rcases hsep with rfl | rfl <;> exact ⟨by decide, by decide, by decide⟩
  obtain ⟨front, rest, rfl, hfront⟩ := eq_of_mem_fields hf
  replace h := h.mono (referencesIn_append_left f rest).subset
  rcases hfront with rfl | ⟨a, rfl⟩
  · exact h
  have hsplit : a ++ [sep] ++ f ++ rest = a ++ sep :: (f ++ rest) := by simp
  rw [hsplit]
  rcases h with h | ⟨whole, hwhole, hcuts⟩
  · exact (mem_referencesIn_behind hplain h a).imp_right fun ⟨b, c, h⟩ => ⟨_, h, sep, hsep, b, c, rfl⟩
  · rcases mem_referencesIn_behind hplain hwhole a with h | ⟨b, c, h⟩
    · exact .inr ⟨whole, h, hcuts⟩
    · refine .inr ⟨_, h, ?_⟩
      have hlonger := hcuts.append (b ++ sep :: c ++ [char '$', char '{'])
      simpa using hlonger

/-- Around a stripped text stood blanks. -/
theorem exists_strip_eq (t : Text) : ∃ front rest, t = front ++ strip t ++ rest ∧
    (∀ c ∈ front, isBlank c = true) ∧ ∀ c ∈ rest, isBlank c = true :=
  exists_trimWhile_eq isBlank t

/-- Around a text whose negations are taken off stood exclamation marks and blanks. -/
theorem exists_takeNegations_eq (t : Text) : ∃ front rest, t = front ++ ((takeNegations t).1 ++ rest) ∧
    ∀ c ∈ front ++ rest, c = char '!' ∨ isBlank c = true := by
  obtain ⟨front, rest, ht, hfront, hrest⟩ := exists_strip_eq t
  obtain ⟨marks, hstrip, hmarks⟩ : ∃ marks, marks ++ (takeNegations t).1 = strip t ∧
      ∀ c ∈ marks, c = char '!' ∨ isBlank c = true :=
    ⟨_, List.takeWhile_append_dropWhile, fun c hc => by simpa using List.mem_takeWhile_imp (x := c) hc⟩
  refine ⟨front ++ marks, rest, ?_, fun c hc => ?_⟩
  · rw [← hstrip] at ht
    simpa using ht
  · simp only [List.mem_append] at hc
    rcases hc with (hc | hc) | hc
    · exact .inr (hfront c hc)
    · exact hmarks c hc
    · exact .inr (hrest c hc)

theorem dollar_not_mark : ¬(char '$' = char '!' ∨ isBlank (char '$') = true) := by decide

/-- Taking negations off takes no reference away or adds one. -/
theorem referencesIn_takeNegations (t : Text) : referencesIn (takeNegations t).1 ⊆ referencesIn t := by
  obtain ⟨front, rest, ht, hmarks⟩ := exists_takeNegations_eq t
  have hplain : char '$' ∉ front := fun hmem => dollar_not_mark (hmarks _ (List.mem_append_left _ hmem))
  conv_rhs => rw [ht, referencesIn_append_of_not_mem hplain]
  exact (referencesIn_append_left _ rest).subset

/-- The name of a kind holds no dollar sign, and neither do the marks and blanks around it. -/
theorem not_mem_of_ofWord? {kind : PredicateKind} (h : PredicateKind.ofWord? (takeNegations t).1 = some kind) :
    char '$' ∉ t := by
  have hword : kind.word = (takeNegations t).1 := by simpa using List.find?_some h
  have hplain : ∀ kind : PredicateKind, char '$' ∉ kind.word := by
    intro kind
    cases kind <;> decide
  obtain ⟨front, rest, ht, hmarks⟩ := exists_takeNegations_eq t
  rw [← hword] at ht
  rw [ht]
  intro hmem
  simp only [List.mem_append] at hmem
  rcases hmem with hmem | hmem | hmem
  · exact dollar_not_mark (hmarks _ (List.mem_append_left _ hmem))
  · exact hplain kind hmem
  · exact dollar_not_mark (hmarks _ (List.mem_append_right _ hmem))

/-- An operand is read with its negations taken off. -/
theorem text_of_parseOperand {predicate raw : Text} {o : Operand} (h : parseOperand predicate raw = .ok o) :
    o.text = (takeNegations raw).1 := by
  unfold parseOperand at h
  split at h
  · cases h
  · rename_i hparts
    rw [← Except.ok.inj h, hparts]

/-- A predicate yields, as it is written, what its operands yield. -/
theorem Yields.of_parsePredicate {value chunk : Text} {p : Predicate} (hread : parsePredicate value chunk = .ok p)
    {o : Operand} (ho : o ∈ p.operands) (h : Yields (referencesIn o.text) name) : Yields (referencesIn chunk) name := by
  unfold parsePredicate at hread
  simp only [throw, throwThe, MonadExceptOf.throw] at hread
  split at hread
  · cases hread
  split at hread
  · cases hread
  rename_i kind hkind
  split at hread
  · obtain ⟨_, hnone, hread⟩ := bind_eq_ok.mp hread
    obtain ⟨_, -, hread⟩ := bind_eq_ok.mp hread
    obtain rfl := Except.ok.inj hread
    obtain rfl := Except.ok.inj hnone
    cases ho
  rename_i hoperands
  obtain ⟨operands, hmap, hread⟩ := bind_eq_ok.mp hread
  obtain ⟨_, -, hread⟩ := bind_eq_ok.mp hread
  obtain rfl := Except.ok.inj hread
  obtain ⟨raw, hraw, hparse⟩ := exists_of_mem_mapM hmap ho
  rw [text_of_parseOperand hparse] at h
  have htail : Yields (referencesIn (cutAtColon chunk).2) name :=
    (h.mono (referencesIn_takeNegations raw)).of_field (.inr rfl) hraw
  refine htail.mono ?_
  cases hcut : cut? (· == ':') chunk with
  | none => simp [cutAtColon, hcut, allBlank] at hoperands
  | some parts =>
    obtain ⟨head, tail⟩ := parts
    rw [cutAtColon, hcut, Option.getD_some] at hkind ⊢
    obtain ⟨-, c, hc, rfl⟩ := eq_of_cut?_eq_some hcut
    have hplain : char '$' ∉ head ++ [c] := by
      rw [List.mem_append, List.mem_singleton, eq_of_beq hc]
      exact not_or.mpr ⟨not_mem_of_ofWord? hkind, by decide⟩
    rw [← List.singleton_append, ← List.append_assoc, referencesIn_append_of_not_mem hplain]
    exact List.Subset.refl _

/-- A list of predicates yields, as it is written, what their operands yield. -/
theorem Yields.of_parsePredicates {value : Text} {ps : List Predicate} (hread : parsePredicates value = .ok ps)
    {p : Predicate} (hp : p ∈ ps) {o : Operand} (ho : o ∈ p.operands) (h : Yields (referencesIn o.text) name) :
    Yields (referencesIn value) name := by
  obtain ⟨chunk, hchunk, hparse⟩ := exists_of_mem_mapM hread hp
  exact (h.of_parsePredicate hparse ho).of_field (.inl rfl) hchunk

end

end Regraft

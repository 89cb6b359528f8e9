import Regraft.Policy.Predicate
import Regraft.Proofs.Fallible
import Mathlib.Tactic.Tauto
/-!
# How predicates combine

A list of predicates says what the set of its predicates says, each with the set of its operands; of its directives, only
the names in them count. So a list may be rearranged (`Rearranged`), and negating its predicates while the directive for
all of them is put in or taken out (`opposed`) turns around what it says.

Both go by one relation: a list echoes another one (`Echoes`), in the same sense or in the opposite one.

* `combine_echoed`: all of some values, and one of the opposite ones;
* `Predicate.Echoes.evaluate`, `Echoes.targets`: what the members of both lists say, and what their directives name;
* `Echoes.toOption_evaluate`: what both lists say;
* `Rearranged.echoes`, `echoes_opposed`: rearranged lists and opposite ones;
* `evaluatePredicates_set`: all of this together.
-/
namespace Regraft

/-- A predicate that asks what another one asks, and says the same or the opposite. -/
structure Predicate.Echoes (opposite : Bool) (p q : Predicate) : Prop where
  kind : q.kind = p.kind
  operands : ∀ o, o ∈ q.operands ↔ o ∈ p.operands
  negated : q.negated = (p.negated ^^ opposite)

/-- The texts that the directives of a list have for names. -/
def targetTexts (ps : List Predicate) : List Text :=
  ((ps.filter Predicate.isDirective).flatMap Predicate.operands).map Operand.text

/-- A directive asks for all predicates of a list to hold. -/
def NamesRoot (complete : Completion) (ps : List Predicate) : Prop := ∃ t ∈ targetTexts ps, complete t = .ok rootTarget

/-- A list whose predicates are those of another one, or their opposites, and whose directives name the same things, but
for `Root`: both name it or neither does, or only one of them if the predicates are opposites. -/
structure Echoes (complete : Completion) (opposite : Bool) (ps qs : List Predicate) : Prop where
  forth : ∀ p ∈ ps, p.isDirective = false → ∃ q ∈ qs, p.Echoes opposite q
  back : ∀ q ∈ qs, q.isDirective = false → ∃ p ∈ ps, p.Echoes opposite q
  others : ∀ t, complete t ≠ .ok rootTarget → (t ∈ targetTexts qs ↔ t ∈ targetTexts ps)
  root : NamesRoot complete qs ↔ (NamesRoot complete ps ↔ opposite = false)

/-- One step of rewriting a list: in another order, with a predicate or an operand once more or once less, with a directive
negated or split in two. -/
inductive Rearranged : List Predicate → List Predicate → Prop
  | reorder {ps qs : List Predicate} : ps.Perm qs → Rearranged ps qs
  | again {p : Predicate} {ps : List Predicate} : p ∈ ps → Rearranged ps (p :: ps)
  | operands (front back : List Predicate) (p : Predicate) {os : List Operand} : (∀ o, o ∈ os ↔ o ∈ p.operands) →
      Rearranged (front ++ p :: back) (front ++ { p with operands := os } :: back)
  | split (front back : List Predicate) (os more : List Operand) (negated first second : Bool) :
      Rearranged (front ++ ⟨.conjunctions, os ++ more, negated⟩ :: back)
        (front ++ ⟨.conjunctions, os, first⟩ :: ⟨.conjunctions, more, second⟩ :: back)
  | negate (front back : List Predicate) (os : List Operand) (negated : Bool) :
      Rearranged (front ++ ⟨.conjunctions, os, negated⟩ :: back) (front ++ ⟨.conjunctions, os, !negated⟩ :: back)

/-- A predicate negated, or a directive without `Root`. -/
def Predicate.opposed (complete : Completion) (p : Predicate) : Predicate :=
  if p.isDirective then { p with operands := p.operands.filter fun o => complete o.text ≠ .ok rootTarget }
  else { p with negated := !p.negated }

/-- The opposite of a list: its predicates negated, and `Root` taken out of its directives, or put in front if they do
not name it. -/
def opposed (complete : Completion) (ps : List Predicate) : List Predicate :=
  (if (targetTexts ps).any fun t => complete t = .ok rootTarget then []
    else [⟨.conjunctions, [⟨rootTarget, false⟩], false⟩]) ++ ps.map (Predicate.opposed complete)

variable {complete : Completion} {opposite : Bool} {ps qs : List Predicate} {f : Facts} {values others : List Bool}

/-! ## Values -/

theorem combine_all : combine true values = true ↔ true ∈ values ∧ false ∉ values := by
  cases values with
  | nil => simp [combine]
  | cons b bs => cases b <;> simp [combine]

theorem combine_any : combine false values = true ↔ true ∈ values := by
  cases values <;> simp [combine]

theorem combine_congr (conjunctive : Bool) (h : ∀ b, b ∈ others ↔ b ∈ values) :
    combine conjunctive others = combine conjunctive values := by
  rw [Bool.eq_iff_iff]
  cases conjunctive <;> simp only [combine_all, combine_any, h]

/-- Of opposite values, one holds where not all of the others do, and all hold where none of the others does. -/
theorem combine_opposite (conjunctive : Bool) (h : ∀ b, b ∈ others ↔ (!b) ∈ values) (hne : values ≠ []) :
    combine (!conjunctive) others = !combine conjunctive values := by
  have hone : true ∈ values ∨ false ∈ values := by
    obtain ⟨b, bs, rfl⟩ := List.exists_cons_of_ne_nil hne
    cases b <;> simp
  rw [Bool.eq_iff_iff, Bool.not_eq_true', ← Bool.not_eq_true]
  cases conjunctive with
  | true =>
    simp only [Bool.not_true, combine_all, combine_any, h]
    tauto
  | false =>
    simp only [Bool.not_true, Bool.not_false, combine_all, combine_any, h]
    tauto

theorem combine_echoed (conjunctive : Bool) (h : ∀ b, b ∈ others ↔ ∃ a ∈ values, (a ^^ opposite) = b)
    (hne : opposite = true → values ≠ []) :
    combine (conjunctive ^^ opposite) others = (combine conjunctive values ^^ opposite) := by
  cases opposite with
  | false =>
    rw [Bool.xor_false, Bool.xor_false]
    exact combine_congr conjunctive fun b => by simp [h]
  | true =>
    rw [Bool.xor_true, Bool.xor_true]
    refine combine_opposite conjunctive (fun b => ?_) (hne rfl)
    rw [h]
    cases b <;> simp

/-! ## Predicates -/

/-- What a predicate says before it is negated. -/
def Predicate.ask (p : Predicate) (f : Facts) (complete : Completion) (conjunctive : Bool) :
    Except EvaluationFault Bool :=
  match p.kind with
  | .always => .ok true
  | .never => .ok false
  | kind => (p.operands.mapM fun o : Operand => o.evaluate kind f complete).map (combine conjunctive)

theorem Predicate.evaluate_eq (p : Predicate) (f : Facts) (complete : Completion) (conjunctive : Bool) :
    p.evaluate f complete conjunctive = (p.ask f complete conjunctive).map (· ^^ p.negated) := by
  have hask : ∀ kind,
      (do return combine conjunctive (← p.operands.mapM fun o : Operand => o.evaluate kind f complete) != p.negated) =
        ((p.operands.mapM fun o : Operand => o.evaluate kind f complete).map (combine conjunctive)).map (· ^^ p.negated) := by
    intro kind
    cases p.operands.mapM fun o => o.evaluate kind f complete <;> rfl
  unfold Predicate.evaluate Predicate.ask
  cases p.kind with
  | always | never => rfl
  | targetExists | isTruthy | nameMatches | conjunctions => exact hask _

theorem Predicate.Echoes.ask {p q : Predicate} (h : p.Echoes opposite q) {conjunctive : Bool} {b : Bool}
    (hvalue : p.ask f complete conjunctive = .ok b) : q.ask f complete conjunctive = .ok b := by
  unfold Predicate.ask at hvalue ⊢
  rw [h.kind]
  split at hvalue
  · exact hvalue
  · exact hvalue
  · obtain ⟨values, hvalues, rfl⟩ := map_eq_ok.mp hvalue
    obtain ⟨others, hothers, hmem⟩ := mapM_agreeing id hvalues
      (fun o ho => ⟨o, (h.operands o).mpr ho, fun _ => id⟩) (fun o ho => ⟨o, (h.operands o).mp ho, fun _ => id⟩)
    exact map_eq_ok.mpr ⟨others, hothers, combine_congr conjunctive fun b => by simp [hmem]⟩

theorem Predicate.Echoes.evaluate {p q : Predicate} (h : p.Echoes opposite q) {conjunctive : Bool} {b : Bool}
    (hvalue : p.evaluate f complete conjunctive = .ok b) : q.evaluate f complete conjunctive = .ok (b ^^ opposite) := by
  rw [Predicate.evaluate_eq] at hvalue ⊢
  obtain ⟨value, hask, rfl⟩ := map_eq_ok.mp hvalue
  exact map_eq_ok.mpr ⟨value, h.ask hask, by rw [h.negated, Bool.xor_assoc]⟩

/-! ## When there is a value -/

theorem Predicate.exists_evaluate (hc : ∀ t, ∃ u, complete t = .ok u) (hf : ∀ path, ∃ b, f.existence path = .ok b)
    (p : Predicate) (conjunctive : Bool) : ∃ b, p.evaluate f complete conjunctive = .ok b := by
  have hasks : ∀ kind (o : Operand), ∃ b, o.evaluate kind f complete = .ok b := by
    intro kind o
    obtain ⟨t, ht⟩ := hc o.text
    obtain ⟨b, hb⟩ : ∃ b, PredicateKind.asks kind f t = .ok b := by
      cases kind with
      | targetExists =>
        change ∃ b, f.targetExists t = .ok b
        unfold Facts.targetExists
        split
        · exact ⟨false, rfl⟩
        · exact hf t
      | isTruthy | nameMatches | always | never | conjunctions => exact ⟨_, rfl⟩
    exact ⟨b != o.negated, bind_eq_ok.mpr ⟨t, mapError_eq_ok.mpr ht, bind_eq_ok.mpr ⟨b, mapError_eq_ok.mpr hb, rfl⟩⟩⟩
  obtain ⟨b, hb⟩ : ∃ b, p.ask f complete conjunctive = .ok b := by
    unfold Predicate.ask
    split
    · exact ⟨true, rfl⟩
    · exact ⟨false, rfl⟩
    · obtain ⟨values, hvalues⟩ := exists_mapM_eq_ok fun o (_ : o ∈ p.operands) => hasks p.kind o
      exact ⟨_, map_eq_ok.mpr ⟨values, hvalues, rfl⟩⟩
  exact ⟨_, p.evaluate_eq f complete conjunctive ▸ map_eq_ok.mpr ⟨b, hb, rfl⟩⟩

/-! ## Directives -/

theorem mem_targetTexts {t : Text} :
    t ∈ targetTexts ps ↔ ∃ p ∈ ps, p.isDirective = true ∧ ∃ o ∈ p.operands, o.text = t := by
  constructor
  · intro h
    obtain ⟨o, ho, rfl⟩ := List.mem_map.mp h
    obtain ⟨p, hp, ho⟩ := List.mem_flatMap.mp ho
    exact ⟨p, (List.mem_filter.mp hp).1, (List.mem_filter.mp hp).2, o, ho, rfl⟩
  · rintro ⟨p, hp, hdirective, o, ho, rfl⟩
    exact List.mem_map_of_mem (List.mem_flatMap.mpr ⟨p, List.mem_filter.mpr ⟨hp, hdirective⟩, ho⟩)

theorem conjunctionTargets_eq : conjunctionTargets ps complete = (targetTexts ps).mapM complete := by
  rw [targetTexts, List.mapM_map]
  rfl

/-- All operands of a predicate have to hold. -/
def joinsOperands (targets : List Text) (kind : PredicateKind) : Bool :=
  decide (allTarget ∈ targets) || decide (predicatesTarget ∈ targets) || decide (kind.word ∈ targets)

/-- All predicates have to hold. -/
def joinsPredicates (targets : List Text) : Bool := decide (allTarget ∈ targets) || decide (rootTarget ∈ targets)

theorem evaluatePredicates_eq_ok {b : Bool} : evaluatePredicates ps f complete = .ok b ↔
    ∃ targets values, (targetTexts ps).mapM complete = .ok targets ∧
      (ps.filter fun p => !p.isDirective).mapM (fun p => p.evaluate f complete (joinsOperands targets p.kind)) =
        .ok values ∧ combine (joinsPredicates targets) values = b := by
  unfold evaluatePredicates
  rw [bind_eq_ok, conjunctionTargets_eq]
  constructor
  · rintro ⟨targets, htargets, h⟩
    obtain ⟨values, hvalues, h⟩ := bind_eq_ok.mp h
    exact ⟨targets, values, mapError_eq_ok.mp htargets, hvalues, Except.ok.inj h⟩
  · rintro ⟨targets, values, htargets, hvalues, rfl⟩
    exact ⟨targets, mapError_eq_ok.mpr htargets, bind_eq_ok.mpr ⟨values, hvalues, rfl⟩⟩

theorem word_ne_rootTarget (kind : PredicateKind) : kind.word ≠ rootTarget := by
  cases kind <;> decide

/-- What the directives of both lists come to. -/
structure EchoTargets (opposite : Bool) (targets others : List Text) : Prop where
  same : ∀ t, t ≠ rootTarget → (t ∈ others ↔ t ∈ targets)
  root : rootTarget ∈ others ↔ (rootTarget ∈ targets ↔ opposite = false)

theorem EchoTargets.joinsOperands {targets others : List Text} (h : EchoTargets opposite targets others)
    (kind : PredicateKind) : joinsOperands others kind = joinsOperands targets kind := by
  have hall := h.same allTarget (by decide)
  have hpredicates := h.same predicatesTarget (by decide)
  have hkind := h.same kind.word (word_ne_rootTarget kind)
  simp only [Regraft.joinsOperands, hall, hpredicates, hkind]

theorem EchoTargets.joinsPredicates {targets others : List Text} (h : EchoTargets opposite targets others)
    (hall : opposite = true → allTarget ∉ targets) :
    joinsPredicates others = (joinsPredicates targets ^^ opposite) := by
  have hothers := h.same allTarget (by decide)
  have hroot := h.root
  cases opposite with
  | false => simp [Regraft.joinsPredicates, hothers, hroot]
  | true => simp [Regraft.joinsPredicates, hothers, hroot, hall rfl]

theorem Echoes.targets (h : Echoes complete opposite ps qs) {targets : List Text}
    (htargets : (targetTexts ps).mapM complete = .ok targets) :
    ∃ others, (targetTexts qs).mapM complete = .ok others ∧ EchoTargets opposite targets others := by
  have hsome : ∀ t ∈ targetTexts qs, ∃ u, complete t = .ok u := by
    intro t ht
    by_cases hroot : complete t = .ok rootTarget
    · exact ⟨_, hroot⟩
    · exact (exists_result_of_mem htargets ((h.others t hroot).mp ht)).imp fun _ hu => hu.2
  obtain ⟨others, hothers⟩ := exists_mapM_eq_ok hsome
  refine ⟨others, hothers, ⟨fun u hu => ?_, ?_⟩⟩
  · rw [mem_mapM_iff hothers, mem_mapM_iff htargets]
    refine exists_congr fun t => and_congr_left fun ht => h.others t fun hroot => hu ?_
    exact Except.ok.inj (ht.symm.trans hroot)
  · rw [mem_mapM_iff hothers, mem_mapM_iff htargets]
    exact h.root

/-! ## Lists -/

theorem Predicate.Echoes.isDirective {p q : Predicate} (h : p.Echoes opposite q) : q.isDirective = p.isDirective := by
  rw [Predicate.isDirective, Predicate.isDirective, h.kind]

theorem Predicate.Echoes.symm {p q : Predicate} (h : p.Echoes opposite q) : q.Echoes opposite p :=
  ⟨h.kind.symm, fun o => (h.operands o).symm, by rw [h.negated, Bool.xor_assoc, Bool.xor_self, Bool.xor_false]⟩

theorem Echoes.symm (h : Echoes complete opposite ps qs) : Echoes complete opposite qs ps where
  forth q hq hdirective := (h.back q hq hdirective).imp fun _ hp => ⟨hp.1, hp.2.symm⟩
  back p hp hdirective := (h.forth p hp hdirective).imp fun _ hq => ⟨hq.1, hq.2.symm⟩
  others t ht := (h.others t ht).symm
  root := by
    have hroot := h.root
    tauto

/-- Where a list has a predicate and does not ask for everything, its opposite may have another value. -/
def Opposable (complete : Completion) (ps : List Predicate) : Prop :=
  (∃ p ∈ ps, p.isDirective = false) ∧ ∀ t ∈ targetTexts ps, complete t ≠ .ok allTarget

theorem Echoes.opposable (h : Echoes complete opposite ps qs) (hps : Opposable complete ps) : Opposable complete qs := by
  obtain ⟨⟨p, hp, hdirective⟩, hall⟩ := hps
  obtain ⟨q, hq, hecho⟩ := h.forth p hp hdirective
  refine ⟨⟨q, hq, hecho.isDirective.trans hdirective⟩, fun t ht heq => hall t ((h.others t ?_).mp ht) heq⟩
  rw [heq]
  decide

theorem Echoes.evaluate (h : Echoes complete opposite ps qs) (hopposable : opposite = true → Opposable complete ps)
    {b : Bool} (hvalue : evaluatePredicates ps f complete = .ok b) :
    evaluatePredicates qs f complete = .ok (b ^^ opposite) := by
  obtain ⟨targets, values, htargets, hvalues, rfl⟩ := evaluatePredicates_eq_ok.mp hvalue
  obtain ⟨others, hothers, hecho⟩ := h.targets htargets
  have hagree : ∀ {p q : Predicate}, p.Echoes opposite q → ∀ b,
      p.evaluate f complete (joinsOperands targets p.kind) = .ok b →
        q.evaluate f complete (joinsOperands others q.kind) = .ok (b ^^ opposite) := by
    intro p q hpq b hb
    rw [hecho.joinsOperands, hpq.kind]
    exact hpq.evaluate hb
  have hforth : ∀ p ∈ ps.filter fun p => !p.isDirective, ∃ q ∈ qs.filter fun q => !q.isDirective, p.Echoes opposite q := by
    intro p hp
    obtain ⟨hp, hdirective⟩ := List.mem_filter.mp hp
    obtain ⟨q, hq, hpq⟩ := h.forth p hp (by simpa using hdirective)
    exact ⟨q, List.mem_filter.mpr ⟨hq, by rw [hpq.isDirective]; exact hdirective⟩, hpq⟩
  have hback : ∀ q ∈ qs.filter fun q => !q.isDirective, ∃ p ∈ ps.filter fun p => !p.isDirective, p.Echoes opposite q := by
    intro q hq
    obtain ⟨hq, hdirective⟩ := List.mem_filter.mp hq
    obtain ⟨p, hp, hpq⟩ := h.back q hq (by simpa using hdirective)
    exact ⟨p, List.mem_filter.mpr ⟨hp, by rw [← hpq.isDirective]; exact hdirective⟩, hpq⟩
  obtain ⟨echoed, hechoed, hmem⟩ := mapM_agreeing (· ^^ opposite) hvalues
    (fun p hp => (hforth p hp).imp fun _ hq => ⟨hq.1, hagree hq.2⟩)
    (fun q hq => (hback q hq).imp fun _ hp => ⟨hp.1, hagree hp.2⟩)
  refine evaluatePredicates_eq_ok.mpr ⟨others, echoed, hothers, hechoed, ?_⟩
  rw [hecho.joinsPredicates]
  · refine combine_echoed _ hmem fun ho hnil => ?_
    obtain ⟨p, hp, hdirective⟩ := (hopposable ho).1
    obtain ⟨b, hb, -⟩ := exists_result_of_mem hvalues (List.mem_filter.mpr ⟨hp, by rw [hdirective]; rfl⟩)
    exact List.ne_nil_of_mem hb hnil
  · intro ho hall
    obtain ⟨t, ht, hcomplete⟩ := (mem_mapM_iff htargets).mp hall
    exact (hopposable ho).2 t ht hcomplete

theorem exists_evaluatePredicates (hc : ∀ t, ∃ u, complete t = .ok u) (hf : ∀ path, ∃ b, f.existence path = .ok b)
    (ps : List Predicate) : ∃ b, evaluatePredicates ps f complete = .ok b := by
  obtain ⟨targets, htargets⟩ := exists_mapM_eq_ok fun t (_ : t ∈ targetTexts ps) => hc t
  obtain ⟨values, hvalues⟩ := exists_mapM_eq_ok fun p (_ : p ∈ ps.filter fun p => !p.isDirective) =>
    p.exists_evaluate hc hf (joinsOperands targets p.kind)
  exact ⟨_, evaluatePredicates_eq_ok.mpr ⟨targets, values, htargets, hvalues, rfl⟩⟩

/-- Both lists have a value or neither has. -/
theorem Echoes.toOption_evaluate (h : Echoes complete opposite ps qs)
    (hopposable : opposite = true → Opposable complete ps) (f : Facts) :
    (evaluatePredicates qs f complete).toOption = (evaluatePredicates ps f complete).toOption.map (· ^^ opposite) := by
  cases hps : evaluatePredicates ps f complete with
  | ok b => rw [h.evaluate hopposable hps]; rfl
  | error fault =>
    cases hqs : evaluatePredicates qs f complete with
    | error other => rfl
    | ok b => cases hps.symm.trans (h.symm.evaluate (fun ho => h.opposable (hopposable ho)) hqs)

/-! ## Rearranged and opposed lists -/

theorem Predicate.Echoes.refl (p : Predicate) : p.Echoes false p := ⟨rfl, fun _ => Iff.rfl, (Bool.xor_false _).symm⟩

/-- Predicates that ask and say the same, with directives that have the same names. -/
theorem echoes_of_targetTexts (hforth : ∀ p ∈ ps, p.isDirective = false → ∃ q ∈ qs, p.Echoes false q)
    (hback : ∀ q ∈ qs, q.isDirective = false → ∃ p ∈ ps, p.Echoes false q)
    (htexts : ∀ t, t ∈ targetTexts qs ↔ t ∈ targetTexts ps) : Echoes complete false ps qs :=
  ⟨hforth, hback, fun t _ => htexts t, by simp [NamesRoot, htexts]⟩

theorem echoes_of_mem_iff (h : ∀ p, p ∈ qs ↔ p ∈ ps) : Echoes complete false ps qs :=
  echoes_of_targetTexts (fun p hp _ => ⟨p, (h p).mpr hp, .refl p⟩) (fun q hq _ => ⟨q, (h q).mp hq, .refl q⟩)
    fun t => by simp only [mem_targetTexts, h]

theorem echoes_of_directives (hps : ∀ p ∈ ps, p.isDirective = true) (hqs : ∀ q ∈ qs, q.isDirective = true)
    (htexts : ∀ t, t ∈ targetTexts qs ↔ t ∈ targetTexts ps) : Echoes complete false ps qs :=
  echoes_of_targetTexts (fun p hp hno => by cases (hps p hp).symm.trans hno)
    (fun q hq hno => by cases (hqs q hq).symm.trans hno) htexts

theorem targetTexts_append (ps qs : List Predicate) : targetTexts (ps ++ qs) = targetTexts ps ++ targetTexts qs := by
  simp [targetTexts]

theorem Echoes.append {ps' qs' : List Predicate} (h : Echoes complete false ps qs) (h' : Echoes complete false ps' qs') :
    Echoes complete false (ps ++ ps') (qs ++ qs') where
  forth p hp hno := (List.mem_append.mp hp).elim
    (fun hp => (h.forth p hp hno).imp fun _ hq => hq.imp_left (List.mem_append_left qs'))
    (fun hp => (h'.forth p hp hno).imp fun _ hq => hq.imp_left (List.mem_append_right qs))
  back q hq hno := (List.mem_append.mp hq).elim
    (fun hq => (h.back q hq hno).imp fun _ hp => hp.imp_left (List.mem_append_left ps'))
    (fun hq => (h'.back q hq hno).imp fun _ hp => hp.imp_left (List.mem_append_right ps))
  others t ht := by
    rw [targetTexts_append, targetTexts_append, List.mem_append, List.mem_append, h.others t ht, h'.others t ht]
  root := by
    have hroot := h.root
    have hroot' := h'.root
    simp only [NamesRoot, iff_true] at hroot hroot'
    simp only [NamesRoot, targetTexts_append, List.mem_append, or_and_right, exists_or, hroot, hroot', iff_true]

theorem Rearranged.echoes (h : Rearranged ps qs) : Echoes complete false ps qs := by
  have hwithin : ∀ {front m n back : List Predicate}, Echoes complete false m n →
      Echoes complete false (front ++ (m ++ back)) (front ++ (n ++ back)) := fun h =>
    (echoes_of_mem_iff fun _ => Iff.rfl).append (h.append (echoes_of_mem_iff fun _ => Iff.rfl))
  cases h with
  | reorder hperm => exact echoes_of_mem_iff fun p => hperm.mem_iff.symm
  | again hmem =>
    exact echoes_of_mem_iff fun p => ⟨fun h => (List.mem_cons.mp h).elim (· ▸ hmem) id, List.mem_cons_of_mem _⟩
  | @operands front back p os hos =>
    have hsame : p.Echoes false { p with operands := os } := ⟨rfl, hos, (Bool.xor_false _).symm⟩
    refine hwithin (m := [p]) (n := [{ p with operands := os }]) (echoes_of_targetTexts ?_ ?_ fun t => ?_)
    · exact fun q hq _ => ⟨_, List.mem_singleton_self _, List.mem_singleton.mp hq ▸ hsame⟩
    · exact fun q hq _ => ⟨p, List.mem_singleton_self p, List.mem_singleton.mp hq ▸ hsame⟩
    · simp [mem_targetTexts, hos, Predicate.isDirective]
  | split front back os more negated first second =>
    refine hwithin (m := [⟨.conjunctions, os ++ more, negated⟩])
      (n := [⟨.conjunctions, os, first⟩, ⟨.conjunctions, more, second⟩])
      (echoes_of_directives (by simp [Predicate.isDirective]) (by simp [Predicate.isDirective]) fun t => ?_)
    simp [targetTexts, Predicate.isDirective]
  | negate front back os negated =>
    refine hwithin (m := [⟨.conjunctions, os, negated⟩]) (n := [⟨.conjunctions, os, !negated⟩])
      (echoes_of_directives (by simp [Predicate.isDirective]) (by simp [Predicate.isDirective]) fun t => ?_)
    simp [targetTexts, Predicate.isDirective]

theorem Predicate.echoes_opposed {p : Predicate} (h : p.isDirective = false) : p.Echoes true (p.opposed complete) := by
  rw [Predicate.opposed, if_neg (by simp [h])]
  exact ⟨rfl, fun _ => Iff.rfl, (Bool.xor_true _).symm⟩

theorem Predicate.isDirective_opposed (p : Predicate) : (p.opposed complete).isDirective = p.isDirective := by
  unfold Predicate.opposed
  split <;> rfl

theorem mem_targetTexts_opposed {t : Text} :
    t ∈ targetTexts (ps.map (Predicate.opposed complete)) ↔ t ∈ targetTexts ps ∧ complete t ≠ .ok rootTarget := by
  rw [mem_targetTexts, mem_targetTexts]
  constructor
  · rintro ⟨q, hq, hdirective, o, ho, rfl⟩
    obtain ⟨p, hp, rfl⟩ := List.mem_map.mp hq
    rw [Predicate.isDirective_opposed] at hdirective
    rw [Predicate.opposed, if_pos hdirective] at ho
    obtain ⟨ho, hroot⟩ := List.mem_filter.mp ho
    exact ⟨⟨p, hp, hdirective, o, ho, rfl⟩, by simpa using hroot⟩
  · rintro ⟨⟨p, hp, hdirective, o, ho, rfl⟩, hroot⟩
    refine ⟨p.opposed complete, List.mem_map_of_mem hp, p.isDirective_opposed.trans hdirective, o, ?_, rfl⟩
    rw [Predicate.opposed, if_pos hdirective]
    exact List.mem_filter.mpr ⟨ho, by simpa using hroot⟩

theorem echoes_opposed (hroot : complete rootTarget = .ok rootTarget) (ps : List Predicate) :
    Echoes complete true ps (opposed complete ps) where
  forth p hp hno :=
    ⟨p.opposed complete, List.mem_append_right _ (List.mem_map_of_mem hp), Predicate.echoes_opposed hno⟩
  back q hq hno := by
    rcases List.mem_append.mp hq with hq | hq
    · split at hq
      · cases hq
      · rw [List.mem_singleton.mp hq] at hno
        cases hno
    · obtain ⟨p, hp, rfl⟩ := List.mem_map.mp hq
      exact ⟨p, hp, Predicate.echoes_opposed (p.isDirective_opposed ▸ hno)⟩
  others t ht := by
    rw [opposed, targetTexts_append, List.mem_append, mem_targetTexts_opposed, and_iff_left ht, or_iff_right]
    have hother : t ≠ rootTarget := fun heq => ht (heq ▸ hroot)
    split <;> simp [targetTexts, Predicate.isDirective, hother]
  root := by
    have hnames : ((targetTexts ps).any fun t => complete t = .ok rootTarget) = true ↔ NamesRoot complete ps := by
      simp [NamesRoot]
    by_cases h : NamesRoot complete ps
    · refine iff_of_false ?_ fun hiff => Bool.noConfusion (hiff.mp h)
      rintro ⟨t, ht, hcomplete⟩
      rw [opposed, if_pos (hnames.mpr h)] at ht
      exact (mem_targetTexts_opposed.mp ht).2 hcomplete
    · refine iff_of_true ⟨rootTarget, ?_, hroot⟩ (iff_of_false h Bool.noConfusion)
      rw [opposed, if_neg (mt hnames.mp h)]
      simp [targetTexts, Predicate.isDirective]

/-- What a list says depends on the set of its predicates, each with the set of its operands, and on the names in its
directives: a rearranged list says the same, or neither list has a value. Where nothing asks for everything and there is a
predicate to negate, the opposite list says the opposite. A list has a value if its texts can be completed and the target
tree can be looked into. -/
theorem evaluatePredicates_set (f : Facts) (complete : Completion) (ps : List Predicate) :
    (∀ qs, Rearranged ps qs → Echoes complete false ps qs) ∧
    (complete rootTarget = .ok rootTarget → Echoes complete true ps (opposed complete ps)) ∧
    (∀ qs, Echoes complete false ps qs →
      (evaluatePredicates qs f complete).toOption = (evaluatePredicates ps f complete).toOption) ∧
    (∀ qs, Echoes complete true ps qs → Opposable complete ps →
      (evaluatePredicates qs f complete).toOption = (evaluatePredicates ps f complete).toOption.map not) ∧
    ((∀ t, ∃ u, complete t = .ok u) → (∀ path, ∃ b, f.existence path = .ok b) →
      ∃ b, evaluatePredicates ps f complete = .ok b) := by
  refine ⟨fun qs h => h.echoes, fun h => echoes_opposed h ps, fun qs h => ?_, fun qs h hopposable => ?_, fun hc hf => ?_⟩
  · rw [h.toOption_evaluate (fun h => by cases h)]
    simp
  · rw [h.toOption_evaluate (fun _ => hopposable)]
    simp
  · exact exists_evaluatePredicates hc hf ps

/-- Two names one of which is true, both of which have to be. -/
def repeatedPredicates : List Predicate :=
  [⟨.isTruthy, [⟨"A", false⟩, ⟨"B", false⟩], false⟩, ⟨.never, [], false⟩, ⟨.conjunctions, [⟨"IsTruthy", false⟩], false⟩]

def samplePredicateFacts : Facts := { defines := [("A", "0"), ("B", "yes")] }

theorem evaluatePredicates_set_sample :
    (evaluatePredicates repeatedPredicates.reverse samplePredicateFacts .none).toOption = some false ∧
    (evaluatePredicates (opposed .none repeatedPredicates) samplePredicateFacts .none).toOption = some true := by
  have hvalue : (evaluatePredicates repeatedPredicates samplePredicateFacts .none).toOption = some false := by
    decide
  obtain ⟨hrearranged, hopposed, hsame, hopposite, -⟩ :=
    evaluatePredicates_set samplePredicateFacts .none repeatedPredicates
  have hopposable : Opposable .none repeatedPredicates := ⟨⟨_, List.mem_cons_self, rfl⟩, by decide⟩
  refine ⟨?_, ?_⟩
  · rw [hsame _ (hrearranged _ (.reorder repeatedPredicates.reverse_perm.symm)), hvalue]
  · rw [hopposite _ (hopposed rfl) hopposable, hvalue]
    rfl

end Regraft

import Regraft.Policy.RuleSet
import Mathlib.Data.List.Induction
/-!
# What lines of rules come to

The rule of a key is made by folding the lines for that key, one after the other. Told at once: lines that are not of the
base domain do not count behind one that is (`Rule.effective`); of those that count, the last one that does not append
starts the rule anew (`Rule.fromLastPlain`); and the rule is put together from there on.

* `Rule.ofLines_eq`: the fold comes to that rule;
* `RuleSet.get?_rulesFor`: the lines of all keys, folded in one pass, come to the rule of each key;
* `RuleSet.rule?_spec`: what the rule of a key is, and which lines may be put in or left out without changing it.
-/
namespace Regraft

namespace Rule

/-- The lines that count: once there is one of the base domain, only those of the base domain do. -/
def effective : List RuleLine → List RuleLine
  | [] => []
  | line :: rest => line :: if line.baseDomain then rest.filter RuleLine.baseDomain else effective rest

/-- The lines from the last one on that does not append; all of them, if they all append. -/
def fromLastPlain : List RuleLine → List RuleLine
  | [] => []
  | line :: rest => if rest.all RuleLine.append then line :: rest else fromLastPlain rest

/-- The last value that is not empty. -/
def lastValue (lines : List RuleLine) : Text :=
  ((lines.map RuleLine.value).filter fun value => !value.isEmpty).getLastD []

/-- The rule of lines that all count. -/
def summary (lines : List RuleLine) : Option Rule :=
  lines.getLast?.map fun last => {
    kind := last.kind
    predicates := (fromLastPlain lines).flatMap RuleLine.predicates
    value := lastValue (fromLastPlain lines)
    baseDomain := lines.any RuleLine.baseDomain
    scope := last.scope }

variable {lines : List RuleLine} {line : RuleLine}

/-! ## One more line -/

@[simp] theorem effective_nil : effective [] = [] := rfl

theorem effective_cons (first : RuleLine) (rest : List RuleLine) :
    effective (first :: rest) = first :: if first.baseDomain then rest.filter RuleLine.baseDomain else effective rest :=
  rfl

theorem effective_of_ordinary (h : lines.any RuleLine.baseDomain = false) (more : List RuleLine) :
    effective (lines ++ more) = lines ++ effective more := by
  induction lines with
  | nil => rfl
  | cons first rest ih =>
    rw [List.any_cons, Bool.or_eq_false_iff] at h
    rw [List.cons_append, effective_cons, h.1, if_neg Bool.false_ne_true, ih h.2, List.cons_append]

/-- Behind the first line of the base domain, only lines of the base domain count. -/
theorem effective_of_baseDomain (h : lines.any RuleLine.baseDomain = true) (more : List RuleLine) :
    effective (lines ++ more) = effective lines ++ more.filter RuleLine.baseDomain := by
  induction lines with
  | nil => cases h
  | cons first rest ih =>
    rw [List.cons_append, effective_cons, effective_cons]
    cases hfirst : first.baseDomain with
    | true => simp only [if_true, List.filter_append, List.cons_append]
    | false =>
      rw [List.any_cons, hfirst, Bool.false_or] at h
      simp only [Bool.false_eq_true, if_false, ih h, List.cons_append]

theorem effective_sublist (lines : List RuleLine) : (effective lines).Sublist lines := by
  induction lines with
  | nil => exact .slnil
  | cons first rest ih =>
    rw [effective_cons]
    split
    · exact .cons_cons first List.filter_sublist
    · exact .cons_cons first ih

theorem effective_eq_nil_iff : effective lines = [] ↔ lines = [] := by
  cases lines with
  | nil => exact iff_of_true rfl rfl
  | cons first rest => exact iff_of_false (List.cons_ne_nil _ _) (List.cons_ne_nil _ _)

@[simp] theorem any_baseDomain_effective (lines : List RuleLine) :
    (effective lines).any RuleLine.baseDomain = lines.any RuleLine.baseDomain := by
  induction lines with
  | nil => rfl
  | cons first rest ih =>
    rw [effective_cons, List.any_cons, List.any_cons]
    cases hfirst : first.baseDomain with
    | true => rfl
    | false => rw [if_neg Bool.false_ne_true, ih]

theorem effective_concat (lines : List RuleLine) (line : RuleLine) :
    effective (lines ++ [line]) =
      if lines.any RuleLine.baseDomain = true ∧ line.baseDomain = false then effective lines
      else effective lines ++ [line] := by
  cases hany : lines.any RuleLine.baseDomain with
  | true =>
    rw [effective_of_baseDomain hany]
    cases hline : line.baseDomain <;> simp [hline]
  | false =>
    have hself : effective lines = lines := by simpa using effective_of_ordinary hany []
    simp [effective_of_ordinary hany, hself, effective_cons]

theorem fromLastPlain_concat (lines : List RuleLine) (line : RuleLine) :
    fromLastPlain (lines ++ [line]) = if line.append = true then fromLastPlain lines ++ [line] else [line] := by
  induction lines with
  | nil => simp [fromLastPlain]
  | cons first rest ih =>
    rw [List.cons_append, fromLastPlain, fromLastPlain, ih, List.all_append]
    cases happend : line.append with
    | true =>
      cases hrest : rest.all RuleLine.append <;> simp [happend]
    | false => simp [happend]

theorem lastValue_concat (lines : List RuleLine) (line : RuleLine) :
    lastValue (lines ++ [line]) = if line.value.isEmpty then lastValue lines else line.value := by
  rw [lastValue, lastValue, List.map_append, List.filter_append]
  cases hvalue : line.value.isEmpty <;> simp [hvalue]

@[simp] theorem lastValue_singleton (line : RuleLine) : lastValue [line] = line.value := by
  cases hvalue : line.value <;> simp [lastValue, hvalue]

@[simp] theorem summary_eq_none_iff : summary lines = none ↔ lines = [] := by
  rw [summary, Option.map_eq_none_iff, List.getLast?_eq_none_iff]

@[simp] theorem summary_singleton (line : RuleLine) : summary [line] = some (ofLine line) := by
  simp [summary, ofLine, fromLastPlain]

/-- A line that counts is folded into the rule of those before it. -/
theorem fold_summary (h : lines.any RuleLine.baseDomain = true → line.baseDomain = true) :
    fold (summary lines) line = summary (lines ++ [line]) := by
  by_cases hnil : lines = []
  · subst hnil
    rw [summary_eq_none_iff.mpr rfl, List.nil_append, summary_singleton, fold]
  · obtain ⟨last, hlast⟩ := Option.isSome_iff_exists.mp (List.getLast?_isSome.mpr hnil)
    have hcounts : ¬(lines.any RuleLine.baseDomain = true ∧ ¬line.baseDomain = true) := fun hc => hc.2 (h hc.1)
    simp only [summary, hlast, Option.map_some, fold, if_neg hcounts, List.getLast?_concat]
    cases happend : line.append with
    | true => simp [fromLastPlain_concat, lastValue_concat, happend]
    | false =>
      have hbase : (lines.any RuleLine.baseDomain || line.baseDomain) = line.baseDomain := by
        cases hany : lines.any RuleLine.baseDomain with
        | true => rw [h hany]; rfl
        | false => rfl
      simp [fromLastPlain_concat, happend, ofLine, hbase]

/-- A line that does not count changes nothing. -/
theorem fold_summary_ordinary (hbase : lines.any RuleLine.baseDomain = true) (hline : line.baseDomain = false) :
    fold (summary lines) line = summary lines := by
  cases hrule : summary lines with
  | none => rw [summary_eq_none_iff.mp hrule] at hbase; cases hbase
  | some rule =>
    obtain ⟨last, -, rfl⟩ := Option.map_eq_some_iff.mp hrule
    rw [fold, if_pos ⟨hbase, by rw [hline]; exact Bool.false_ne_true⟩]

/-- The fold comes to the rule of the lines that count. -/
theorem ofLines_eq (lines : List RuleLine) : ofLines lines = summary (effective lines) := by
  induction lines using List.reverseRecOn with
  | nil => rfl
  | append_singleton lines line ih =>
    have hfold : ofLines (lines ++ [line]) = fold (ofLines lines) line := List.foldl_append ..
    rw [hfold, ih, effective_concat]
    split
    · rename_i hout
      exact fold_summary_ordinary (by rw [any_baseDomain_effective, hout.1]) hout.2
    · rename_i hcounts
      refine fold_summary fun hany => ?_
      rw [any_baseDomain_effective] at hany
      exact Bool.not_eq_false _ ▸ fun hline => hcounts ⟨hany, hline⟩

/-- Lines that are not of the base domain make no difference behind one that is. -/
theorem effective_congr {front back back' : List RuleLine} (hline : line.baseDomain = true)
    (h : back.filter RuleLine.baseDomain = back'.filter RuleLine.baseDomain) :
    effective (front ++ line :: back) = effective (front ++ line :: back') := by
  have hany : (front ++ [line]).any RuleLine.baseDomain = true := by simp [hline]
  have hsplit (rest : List RuleLine) : effective (front ++ line :: rest) =
      effective (front ++ [line]) ++ rest.filter RuleLine.baseDomain := by
    rw [← effective_of_baseDomain hany, List.append_assoc, List.singleton_append]
  rw [hsplit back, hsplit back', h]

/-- A line that does not append starts the rule anew, unless it does not count behind the lines before it. -/
theorem ofLines_of_plain {front back : List RuleLine} (hplain : line.append = false)
    (hcounts : line.baseDomain = true ∨ ∀ earlier ∈ front, earlier.baseDomain = false) :
    ofLines (front ++ line :: back) = ofLines (line :: back) := by
  have hstart : fold (ofLines front) line = some (ofLine line) := by
    cases hrule : ofLines front with
    | none => rfl
    | some rule =>
      have hbase : rule.baseDomain = front.any RuleLine.baseDomain := by
        rw [ofLines_eq] at hrule
        obtain ⟨last, -, rfl⟩ := Option.map_eq_some_iff.mp hrule
        exact any_baseDomain_effective front
      have hfree : ¬(rule.baseDomain = true ∧ ¬line.baseDomain = true) := by
        rintro ⟨hrule, hline⟩
        obtain ⟨earlier, hmem, hearlier⟩ := List.any_eq_true.mp (hbase ▸ hrule)
        rw [hcounts.resolve_left hline earlier hmem] at hearlier
        cases hearlier
      rw [fold, if_neg hfree, if_neg (by simp [hplain])]
  rw [ofLines, List.foldl_append, ← ofLines, List.foldl_cons, hstart]
  rfl

/-- A line makes a rule of what there is. -/
theorem exists_fold (current : Option Rule) (line : RuleLine) : ∃ rule, fold current line = some rule := by
  cases current with
  | none => exact ⟨_, rfl⟩
  | some rule =>
    rw [fold]
    split
    · exact ⟨_, rfl⟩
    · split <;> exact ⟨_, rfl⟩

end Rule

namespace RuleSet

variable (rules : RuleSet) (kind : RuleKind) (path : Text)

theorem kind_of_mem_linesFor {line : RuleLine} (h : line ∈ rules.linesFor kind path) : line.kind = kind :=
  of_decide_eq_true (List.mem_filter.mp h).2

/-- The rules of all keys for a path, made in one pass over the lines. -/
def rulesFor : List (RuleKind × Rule) :=
  ((rules.chain path).flatMap Scope.lines).foldl (fun made line =>
    match Rule.fold (Table.get? line.kind made) line with
    | some rule => Table.put line.kind rule made
    | none => made) []

/-- The lines of one key have no part in the rule of another one. -/
theorem get?_rulesFor : Table.get? kind (rules.rulesFor path) = rules.rule? kind path := by
  rw [rule?, linesFor, rulesFor]
  induction (rules.chain path).flatMap Scope.lines using List.reverseRecOn with
  | nil => rfl
  | append_singleton lines line ih =>
    rw [List.foldl_append, List.foldl_cons, List.foldl_nil, List.filter_append, Rule.ofLines, List.foldl_append,
      ← Rule.ofLines, ← ih]
    obtain ⟨rule, hrule⟩ := Rule.exists_fold (Table.get? line.kind
      (lines.foldl (fun made line => match Rule.fold (Table.get? line.kind made) line with
        | some rule => Table.put line.kind rule made
        | none => made) [])) line
    by_cases hkind : line.kind = kind
    · subst hkind
      simp [hrule]
    · simp [hrule, hkind, Table.get?_put_of_ne (Ne.symm hkind)]

/-- There is a rule for a key exactly when lines for that key apply to the path. Of these lines, those that are not of
the base domain do not count behind the first one that is. The rule is of the base domain if one of the lines is; its
predicates are those of the lines that count, from the last one on that does not append; its value is the last one among
them that is not empty; and its scope is that of the last line that counts. So lines that are not of the base domain may
be put in or left out behind one that is: the rule stays the same. -/
theorem rule?_spec (rules : RuleSet) (kind : RuleKind) (path : Text) :
    Table.get? kind (rules.rulesFor path) = rules.rule? kind path ∧
    ((rules.rule? kind path).isSome = true ↔ rules.linesFor kind path ≠ []) ∧
    (∀ rule, rules.rule? kind path = some rule →
      rule.kind = kind ∧
      (rule.baseDomain = true ↔ ∃ line ∈ rules.linesFor kind path, line.baseDomain = true) ∧
      rule.predicates =
        (Rule.fromLastPlain (Rule.effective (rules.linesFor kind path))).flatMap RuleLine.predicates ∧
      rule.value = Rule.lastValue (Rule.fromLastPlain (Rule.effective (rules.linesFor kind path))) ∧
      some rule.scope = (Rule.effective (rules.linesFor kind path)).getLast?.map RuleLine.scope) ∧
    ∀ (front : List RuleLine) (mark : RuleLine) (back : List RuleLine), mark.baseDomain = true →
      rules.linesFor kind path = front ++ mark :: back →
      ∀ (other : RuleSet) (otherPath : Text) (back' : List RuleLine),
        back'.filter RuleLine.baseDomain = back.filter RuleLine.baseDomain →
        other.linesFor kind otherPath = front ++ mark :: back' → other.rule? kind otherPath = rules.rule? kind path := by
  refine ⟨rules.get?_rulesFor kind path, ?_, fun rule hrule => ?_, ?_⟩
  · rw [rule?, Rule.ofLines_eq, Option.isSome_iff_ne_none, ne_eq, Rule.summary_eq_none_iff, Rule.effective_eq_nil_iff]
  · rw [rule?, Rule.ofLines_eq] at hrule
    obtain ⟨last, hlast, rfl⟩ := Option.map_eq_some_iff.mp hrule
    have hmem := (Rule.effective_sublist _).subset (List.mem_of_getLast? hlast)
    refine ⟨rules.kind_of_mem_linesFor kind path hmem, ?_, rfl, rfl, by rw [hlast]; rfl⟩
    simp only [Rule.any_baseDomain_effective, List.any_eq_true]
  · intro front mark back hmark hlines other otherPath back' hback hother
    rw [rule?, rule?, hlines, hother, Rule.ofLines_eq, Rule.ofLines_eq, Rule.effective_congr hmark hback]

end RuleSet

end Regraft

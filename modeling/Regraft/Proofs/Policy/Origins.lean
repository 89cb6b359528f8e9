import Regraft.Proofs.Policy.Chain
/-!
# Where rules come from

A rule says what lines say: each of its predicates, its value and its scope are those of a line (`Rule.MadeOf`). The lines
that apply to a path are lines of the draft, put under the paths of scopes around that path (`RuleSet.exists_written`).
-/
namespace Regraft

namespace Rule

/-- A rule with the predicates, the value and the scope of lines. -/
structure MadeOf (lines : List RuleLine) (rule : Rule) : Prop where
  predicates : ∀ p ∈ rule.predicates, ∃ line ∈ lines, p ∈ line.predicates
  value : ∃ line ∈ lines, rule.value = line.value
  scope : ∃ line ∈ lines, rule.scope = line.scope

variable {lines more : List RuleLine} {line : RuleLine} {rule : Rule}

theorem madeOf_ofLine (h : line ∈ lines) : MadeOf lines (ofLine line) :=
  ⟨fun _ hp => ⟨line, h, hp⟩, ⟨line, h, rfl⟩, ⟨line, h, rfl⟩⟩

theorem MadeOf.mono (h : MadeOf lines rule) (hsub : lines ⊆ more) : MadeOf more rule where
  predicates p hp := (h.predicates p hp).imp fun _ hline => hline.imp_left (@hsub _)
  value := h.value.imp fun _ hline => hline.imp_left (@hsub _)
  scope := h.scope.imp fun _ hline => hline.imp_left (@hsub _)

theorem MadeOf.fold {made : Rule} (h : MadeOf lines rule) (hline : line ∈ lines)
    (hmade : Rule.fold (some rule) line = some made) : MadeOf lines made := by
  rw [Rule.fold] at hmade
  split at hmade
  · exact Option.some.inj hmade ▸ h
  split at hmade
  · rw [← Option.some.inj hmade]
    refine ⟨fun p hp => ?_, ?_, ⟨line, hline, rfl⟩⟩
    · exact (List.mem_append.mp hp).elim (h.predicates p) fun hp => ⟨line, hline, hp⟩
    · dsimp only
      split
      · exact h.value
      · exact ⟨line, hline, rfl⟩
  · exact Option.some.inj hmade ▸ madeOf_ofLine hline

theorem madeOf_ofLines (h : ofLines lines = some rule) : MadeOf lines rule := by
  induction lines using List.reverseRecOn generalizing rule with
  | nil => cases h
  | append_singleton lines line ih =>
    have hlast : line ∈ lines ++ [line] := List.mem_append_right _ (List.mem_singleton_self line)
    rw [ofLines, List.foldl_append, ← ofLines, List.foldl_cons, List.foldl_nil] at h
    cases hbefore : ofLines lines with
    | none =>
      rw [hbefore] at h
      exact Option.some.inj h ▸ madeOf_ofLine hlast
    | some before =>
      rw [hbefore] at h
      exact ((ih hbefore).mono (List.subset_append_left _ _)).fold hlast h

end Rule

namespace RuleSet

variable {d : Draft} {defines : Table Text} {rules : RuleSet} {kind : RuleKind} {path : Text} {line : RuleLine}

/-- A line that applies to a path stands in a scope around it, and in the draft, wherever it is written there. -/
theorem exists_written (h : ofDraft d defines = .ok rules) (hline : line ∈ rules.linesFor kind path) :
    (IsScopePath line.scope ∧ isWithin (scopePath path) line.scope = true) ∧
      ∃ entry ∈ d.scopes, ∃ original ∈ entry.2, line = { original with scope := line.scope } := by
  obtain ⟨entries, harranged, rfl⟩ := exists_arranged h
  have hmem := (List.mem_filter.mp hline).1
  rw [chain_eq harranged.isRow] at hmem
  obtain ⟨s, hs, hline⟩ := List.mem_flatMap.mp hmem
  obtain ⟨hs, hwithin⟩ := List.mem_filter.mp hs
  have hentry : (s.path, s.lines) ∈ entries := (foldl_addScope entries).1 ▸ List.mem_map_of_mem hs
  rw [show s.lines = _ from harranged.lines _ hentry] at hline
  obtain ⟨entry, hwritten, hline⟩ := List.mem_flatMap.mp hline
  obtain ⟨original, horiginal, rfl⟩ := List.mem_map.mp hline
  exact ⟨⟨harranged.isScopePath _ hentry, hwithin⟩, entry, (List.mem_filter.mp hwritten).1, original, horiginal, rfl⟩

/-- The rule of a path has the scope of a line that applies to it, so one around the path. -/
theorem scope_of_rule? {rule : Rule} (h : ofDraft d defines = .ok rules) (hrule : rules.rule? kind path = some rule) :
    IsScopePath rule.scope ∧ isWithin (scopePath path) rule.scope = true := by
  obtain ⟨line, hline, hscope⟩ := (Rule.madeOf_ofLines hrule).scope
  exact hscope ▸ (exists_written h hline).1

/-! ## Where paths go -/

/-- The scope that a path is flattened in. -/
def flattenBase (rules : RuleSet) (path : Text) : Text := ((rules.rule? .flattenIf path).map Rule.scope).getD []

theorem destination_false (rules : RuleSet) (path : Text) (flatten : Bool) : rules.destination path false flatten =
    .ok (if flatten then flattenTo (rules.flattenBase path) path else path) := by
  cases flatten <;> rfl

theorem destination_true (rules : RuleSet) (path : Text) (flatten : Bool) : rules.destination path true flatten =
    (rules.remapping path).map fun (old, new) =>
      if flatten then flattenTo
        (if isWithin (rules.flattenBase path) old then rebase (rules.flattenBase path) old new else new)
        (rebase path old new)
      else rebase path old new := by
  cases flatten <;> cases hremap : rules.remapping path <;> simp [destination, hremap, flattenBase] <;> rfl

end RuleSet

end Regraft

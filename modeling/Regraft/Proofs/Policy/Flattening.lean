import Regraft.Proofs.Policy.Destination
/-!
# Flattened paths

Flattening puts the last name of a path behind the scope of the rule that asks for it. The scope is around the path, so that
what is left out are directories between the two. There is one exception: a scope can be the path itself, and then the last
name comes twice.

The scope is looked up for the path in the form of scopes, but the path has been brought into this form before. If it is not
in it for good, because blanks come out at its ends when slashes are taken off, the scope is around another path.

* `Path.ofText_flattenTo`: the names of a flattened path;
* `RuleSet.evaluate_flattened`: where a flattened path goes, and when only directories are left out on the way;
* `RuleSet.evaluate_deeper`: paths that go to where no directories are left out.
-/
namespace Regraft

variable {path base scope a b : Text}

namespace Path

/-- Parts that are put together have the names of both. -/
theorem namesOf_joinParts (a b : Text) : namesOf (joinParts [a, b]) = namesOf a ++ namesOf b := by
  cases a with
  | nil => cases b <;> rfl
  | cons c a =>
    cases b with
    | nil => exact (List.append_nil _).symm
    | cons d b =>
      have hjoin : joinParts [c :: a, d :: b] = (c :: a) ++ char '/' :: d :: b := by simp [joinParts, joinWith]
      rw [hjoin, namesOf_append]

/-- The last name of a path, read as a path. -/
theorem namesOf_name (path : Text) : namesOf (ofText path).name = (namesOf path).getLast?.toList := by
  rw [name, ofText, List.getLastD_eq_getLast?]
  cases hlast : (namesOf path).getLast? with
  | none => rfl
  | some last =>
    have hname : ∀ name ∈ [last], IsName name := fun name hmem =>
      isName_of_mem_namesOf (List.mem_of_getLast? (List.mem_singleton.mp hmem ▸ hlast))
    exact namesOf_joinWith hname

theorem namesOf_flattenTo (base path : Text) :
    namesOf (RuleSet.flattenTo base path) = namesOf base ++ (namesOf path).getLast?.toList := by
  rw [RuleSet.flattenTo, namesOf_joinParts, namesOf_name]

end Path

/-- The names of a path begin with those of every path around it. -/
theorem namesOf_prefix_of_isWithin (h : isWithin path base = true) : Path.namesOf base <+: Path.namesOf path := by
  rcases isWithin_iff_append.mp h with rfl | rfl | ⟨rest, rfl⟩
  · exact List.nil_prefix
  · exact List.prefix_rfl
  · rw [Path.namesOf_append]
    exact List.prefix_append _ _

/-- Paths in the form of scopes are told apart by their names, as far as they have some. -/
theorem IsScopePath.eq_of_namesOf (ha : IsScopePath a) (hb : IsScopePath b) (h : Path.namesOf a = Path.namesOf b)
    (hne : Path.namesOf a ≠ []) : a = b := by
  cases ha with
  | root => exact absurd rfl hne
  | here => exact absurd rfl hne
  | names names _ hnames =>
    cases hb with
    | root => exact absurd h hne
    | here => exact absurd h hne
    | names others _ hothers =>
      rw [Path.namesOf_joinWith hnames, Path.namesOf_joinWith hothers] at h
      rw [h]

/-- Around another path, a scope has the first of the names above the last one. -/
theorem IsScopePath.prefix_dropLast (hscope : IsScopePath scope) (hpath : IsScopePath path)
    (hwithin : isWithin path scope = true) (hne : scope ≠ path) :
    Path.namesOf scope <+: (Path.namesOf path).dropLast := by
  have hprefix := namesOf_prefix_of_isWithin hwithin
  rcases List.eq_nil_or_concat (Path.namesOf path) with hnil | ⟨above, last, hnames⟩
  · simpa [hnil] using hprefix
  · rw [hnames, List.concat_eq_append] at hprefix ⊢
    rw [List.dropLast_concat]
    refine (List.prefix_concat_iff.mp hprefix).resolve_left fun hsame => hne (hscope.eq_of_namesOf hpath ?_ ?_)
    · rw [hsame, hnames, List.concat_eq_append]
    · simp [hsame]

/-- The last of some names behind those before it. -/
theorem dropLast_append_last (names : List Text) : names.dropLast ++ names.getLast?.toList = names := by
  rcases List.eq_nil_or_concat names with rfl | ⟨above, last, rfl⟩
  · rfl
  · simp

namespace RuleSet

variable {d : Draft} {defines : Table Text} {rules : RuleSet} {raw : Text} {facts : Facts} {r : Resolution}

/-- A path is flattened because a rule asks for it. -/
theorem exists_rule_of_flatten (h : rules.evaluate raw facts = .ok r) (hflatten : r.flatten = true) :
    r.targetPath = scopePath raw ∧ (∃ rule, rules.rule? .flattenIf r.targetPath = some rule) ∧
      rules.destination r.targetPath r.remap r.flatten = .ok r.destination := by
  unfold evaluate at h
  obtain ⟨skip, -, h⟩ := bind_eq_ok.mp h
  cases skip with
  | true =>
    rw [← Except.ok.inj h] at hflatten
    cases hflatten
  | false =>
    obtain ⟨remap, -, h⟩ := bind_eq_ok.mp h
    obtain ⟨flatten, hholds, h⟩ := bind_eq_ok.mp h
    obtain ⟨destination, hdestination, h⟩ := bind_eq_ok.mp h
    obtain rfl := Except.ok.inj h
    refine ⟨rfl, Option.ne_none_iff_exists'.mp fun hnone => ?_, hdestination⟩
    rw [holds, hnone] at hholds
    rw [← Except.ok.inj hholds] at hflatten
    cases hflatten

/-- A path that is flattened and not remapped goes to its last name behind the scope of the rule for that. Only directories
are left out exactly when the names of the scope are among those above the last one. If the path is in the form of scopes for
good, this is so unless the scope is the path itself, and what is left out is between the scope and the last name. -/
theorem evaluate_flattened (h : ofDraft d defines = .ok rules) (heval : rules.evaluate raw facts = .ok r)
    (hflatten : r.flatten = true) (hremap : r.remap = false) :
    ∃ rule, rules.rule? .flattenIf r.targetPath = some rule ∧
      Path.ofText r.destination =
        Path.ofNames (Path.namesOf rule.scope ++ (Path.namesOf r.targetPath).getLast?.toList) ∧
      ((Path.namesOf r.destination).Sublist (Path.namesOf r.targetPath) ↔
        (Path.namesOf rule.scope).Sublist (Path.namesOf r.targetPath).dropLast) ∧
      (scopePath r.targetPath = r.targetPath →
        ((Path.namesOf r.destination).Sublist (Path.namesOf r.targetPath) ↔
          rule.scope ≠ r.targetPath ∨ Path.namesOf r.targetPath = []) ∧
        (rule.scope ≠ r.targetPath → ∃ between, Path.namesOf r.targetPath =
          Path.namesOf rule.scope ++ between ++ (Path.namesOf r.targetPath).getLast?.toList)) := by
  obtain ⟨htarget, ⟨rule, hrule⟩, hdestination⟩ := exists_rule_of_flatten heval hflatten
  have hform : IsScopePath r.targetPath := htarget ▸ isScopePath_scopePath raw
  obtain ⟨hscope, hwithin⟩ := scope_of_rule? h hrule
  have hleads : LeadsOver (fun _ => True) r.destination :=
    leadsOver_destination h ⟨hform.relative, fun _ _ => trivial⟩ (.inr fun _ => trivial)
      (fun hmoved => by simp [hremap] at hmoved) hdestination
  have hnames : Path.namesOf r.destination =
      Path.namesOf rule.scope ++ (Path.namesOf r.targetPath).getLast?.toList := by
    rw [hremap, hflatten, destination_false, if_pos rfl, flattenBase, hrule] at hdestination
    exact Except.ok.inj hdestination ▸ Path.namesOf_flattenTo _ _
  have hlast := dropLast_append_last (Path.namesOf r.targetPath)
  have hsublist : (Path.namesOf r.destination).Sublist (Path.namesOf r.targetPath) ↔
      (Path.namesOf rule.scope).Sublist (Path.namesOf r.targetPath).dropLast := by
    rw [hnames]
    nth_rewrite 2 [← hlast]
    exact List.append_sublist_append_right _
  refine ⟨rule, hrule, ?_, hsublist, fun hsettled => ⟨?_, fun hne => ?_⟩⟩
  · rw [Path.ofText, Path.rootOf_of_head? hleads.relative, hnames, Path.ofNames]
  · rw [hsublist]
    rw [hsettled] at hwithin
    constructor
    · intro hshort
      by_contra! hsame
      rw [hsame.1] at hshort
      have hlength := hshort.length_le
      have hpos := List.length_pos_iff.mpr hsame.2
      rw [List.length_dropLast] at hlength
      omega
    · rintro (hne | hnil)
      · exact (hscope.prefix_dropLast hform hwithin hne).sublist
      · have hprefix := namesOf_prefix_of_isWithin hwithin
        rw [hnil] at hprefix ⊢
        exact hprefix.sublist
  · rw [hsettled] at hwithin
    obtain ⟨between, hbetween⟩ := hscope.prefix_dropLast hform hwithin hne
    exact ⟨between, by rw [hbetween, hlast]⟩

/-! ## A sample -/

/-- A line that asks for flattening below a scope. -/
def flatteningLine (scope : Text) : RuleLine :=
  ⟨.flattenIf, scope, [⟨.always, [], false⟩], [], false, false, "Crysknife.ini", 2⟩

/-- The draft with this line. -/
def flatteningDraft (scope : Text) : Draft where
  scopes := [(scope, [flatteningLine scope])]

/-- The rule set of this draft. -/
def flattening (scope : Text) : RuleSet := ⟨[], [⟨[], none, []⟩, ⟨scope, some 0, [flatteningLine scope]⟩]⟩

theorem ofDraft_flattening {c : CodePoint} {t : Text}
    (hresolve : resolveScopes [] (flatteningDraft (c :: t)).scopes = .ok (flatteningDraft (c :: t)).scopes)
    (hordered : pathBefore (c :: t, [flatteningLine (c :: t)]) ([], []) = false) :
    ofDraft (flatteningDraft (c :: t)) [] = .ok (flattening (c :: t)) :=
  ofDraft_eq_ok rfl rfl hresolve (.swap _ _ _) (List.pairwise_pair.mpr hordered) rfl

theorem evaluate_flattened_sample :
    ofDraft (flatteningDraft "A") [] = .ok (flattening "A") ∧
      (flattening "A").evaluate "A/b/x.cpp" {} =
        .ok { targetPath := "A/b/x.cpp", destination := "A/x.cpp", flatten := true } ∧
      (Path.namesOf "A/x.cpp").Sublist (Path.namesOf "A/b/x.cpp") := by
  have hrules : ofDraft (flatteningDraft "A") [] = .ok (flattening "A") :=
    ofDraft_flattening (by with_unfolding_all rfl) (by decide)
  have heval : (flattening "A").evaluate "A/b/x.cpp" {} =
      .ok { targetPath := "A/b/x.cpp", destination := "A/x.cpp", flatten := true } := by
    with_unfolding_all decide
  obtain ⟨rule, hrule, -, -, hsettled⟩ := evaluate_flattened hrules heval rfl rfl
  have hsome : (flattening "A").rule? .flattenIf "A/b/x.cpp" = some (.ofLine (flatteningLine "A")) := by
    with_unfolding_all decide
  obtain rfl := Option.some.inj (hsome.symm.trans hrule)
  exact ⟨hrules, heval, (hsettled (by decide)).1.mpr (.inl (by decide))⟩

/-- The scope of the rule is the path itself, and its last name comes twice. And blanks come out at the ends of a path, so that
the scope is around another path. -/
theorem evaluate_deeper :
    (ofDraft (flatteningDraft "A/x.cpp") [] = .ok (flattening "A/x.cpp") ∧
      (flattening "A/x.cpp").evaluate "A/x.cpp" {} =
        .ok { targetPath := "A/x.cpp", destination := "A/x.cpp/x.cpp", flatten := true } ∧
      ¬ (Path.namesOf "A/x.cpp/x.cpp").Sublist (Path.namesOf "A/x.cpp")) ∧
    ofDraft (flatteningDraft "a") [] = .ok (flattening "a") ∧
      (flattening "a").evaluate "a /" {} = .ok { targetPath := "a ", destination := "a/a ", flatten := true } ∧
      ¬ (Path.namesOf "a/a ").Sublist (Path.namesOf "a ") := by
  exact ⟨⟨ofDraft_flattening (by with_unfolding_all rfl) (by decide), by with_unfolding_all decide, by decide⟩,
    ofDraft_flattening (by with_unfolding_all rfl) (by decide), by with_unfolding_all decide, by decide⟩

end RuleSet

end Regraft

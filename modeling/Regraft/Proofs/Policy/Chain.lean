import Regraft.Proofs.Policy.Resolving
/-!
# Chains of scopes

The scopes of a rule set stand in a row in which none is inside of a later one (`RuleSet.IsRow`), and each but the first
knows the innermost of the earlier ones around it. Following these from the deepest scope around a path comes to all the
scopes around that path (`RuleSet.outward_eq`, `RuleSet.chain_eq`).

* `RuleSet.chain_spec`: the chain of a path is made of the scopes around it, the shortest path first, and the parent of
  a scope is the longest of the others around it.
-/
namespace Regraft.RuleSet

/-! ## The best of a row -/

section
variable {p : Scope → Bool} {f : Scope → Nat} {better : Nat → Nat → Bool}

/-- Goes on with a scope, if it is one of those looked for and better than the best so far. -/
def pick (p : Scope → Bool) (f : Scope → Nat) (better : Nat → Nat → Bool) (best : Nat × Nat) (s : Scope × Nat) :
    Nat × Nat :=
  if p s.1 && better best.2 (f s.1) then (s.2, f s.1) else best

/-- The number and the measure of a scope that none of those looked for exceeds, if there are any. -/
inductive Picked (p : Scope → Bool) (f : Scope → Nat) (scopes : List Scope) : Nat × Nat → Prop where
  | nothing (none : ∀ s ∈ scopes, p s = false) : Picked p f scopes (0, 0)
  | scope (i : Nat) (s : Scope) (place : scopes[i]? = some s) (found : p s = true)
      (most : ∀ r ∈ scopes, p r = true → f r ≤ f s) : Picked p f scopes (i, f s)

theorem Picked.concat {scopes : List Scope} {best : Nat × Nat} (h : Picked p f scopes best)
    (hstart : ∀ s, p s = true → better 0 (f s) = true) (hyes : ∀ m n, better m n = true → m ≤ n)
    (hno : ∀ m n, better m n = false → n ≤ m) (s : Scope) :
    Picked p f (scopes ++ [s]) (pick p f better best (s, scopes.length)) := by
  have hlast : (scopes ++ [s])[scopes.length]? = some s := List.getElem?_concat_length
  have hall : ∀ {P : Scope → Prop}, (∀ r ∈ scopes, P r) → P s → ∀ r ∈ scopes ++ [s], P r := fun hscopes hs r hr =>
    (List.mem_append.mp hr).elim (hscopes r) fun hr => List.mem_singleton.mp hr ▸ hs
  unfold pick
  cases h with
  | nothing hnone =>
    cases hs : p s with
    | false => exact .nothing (hall hnone hs)
    | true =>
      rw [hstart s hs]
      refine .scope _ s hlast hs (hall (fun r hr hp => ?_) fun _ => Nat.le_refl _)
      rw [hnone r hr] at hp
      cases hp
  | scope i t hplace hfound hmost =>
    have hplace' : (scopes ++ [s])[i]? = some t := by
      rw [List.getElem?_append_left (List.getElem?_eq_some_iff.mp hplace).1, hplace]
    cases hs : p s with
    | false => exact .scope i t hplace' hfound (hall hmost fun hp => by rw [hs] at hp; cases hp)
    | true =>
      cases hbetter : better (f t) (f s) with
      | false =>
        exact .scope i t hplace' hfound (hall hmost fun _ => hno _ _ hbetter)
      | true =>
        exact .scope _ s hlast hs (hall (fun r hr hp => Nat.le_trans (hmost r hr hp) (hyes _ _ hbetter))
          fun _ => Nat.le_refl _)

theorem picked_foldl (hstart : ∀ s, p s = true → better 0 (f s) = true) (hyes : ∀ m n, better m n = true → m ≤ n)
    (hno : ∀ m n, better m n = false → n ≤ m) (scopes : List Scope) :
    Picked p f scopes (scopes.zipIdx.foldl (pick p f better) (0, 0)) := by
  induction scopes using List.reverseRecOn with
  | nil => exact .nothing fun s hs => absurd hs List.not_mem_nil
  | append_singleton scopes s ih =>
    rw [List.zipIdx_append, List.foldl_append]
    simpa using ih.concat hstart hyes hno s

end

/-- A scope around a path that is not the one for every path. -/
def isInside (path : Text) (s : Scope) : Bool := !s.path.isEmpty && isWithin path s.path

theorem isInside_iff {path : Text} {s : Scope} : isInside path s = true ↔ s.path ≠ [] ∧ isWithin path s.path = true := by
  simp [isInside]

theorem picked_innermost (scopes : List Scope) (path : Text) :
    ∃ length, Picked (isInside path) (fun s => s.path.length) scopes (innermost scopes path, length) := by
  have hpicked : Picked (isInside path) (fun s => s.path.length) scopes
      (scopes.zipIdx.foldl (pick (isInside path) (fun s => s.path.length) fun m n => m < n) (0, 0)) :=
    picked_foldl (fun s hs => by simpa [List.length_pos_iff] using (isInside_iff.mp hs).1)
      (fun m n h => Nat.le_of_lt (of_decide_eq_true h)) (fun m n h => Nat.not_lt.mp (of_decide_eq_false h)) scopes
  exact ⟨_, hpicked⟩

theorem picked_scopeFor (rules : RuleSet) (path : Text) :
    ∃ depth, Picked (isInside path) Scope.depth rules.scopes (rules.scopeFor path, depth) := by
  have hpicked : Picked (isInside path) Scope.depth rules.scopes
      (rules.scopes.zipIdx.foldl (pick (isInside path) Scope.depth fun m n => m ≤ n) (0, 0)) :=
    picked_foldl (fun s _ => by simp) (fun m n h => of_decide_eq_true h)
      (fun m n h => Nat.le_of_not_le (of_decide_eq_false h)) rules.scopes
  exact ⟨_, hpicked⟩

/-! ## Rows of scopes -/

/-- Each scope knows the innermost of the earlier ones around it. -/
def HasParents (scopes : List Scope) : Prop := ∀ (i : Nat) (s : Scope), scopes[i]? = some s →
  s.parent = if s.path.isEmpty then none else some (innermost (scopes.take i) s.path)

/-- Scopes in a row: none is inside of a later one, the first one is for every path, and each knows the innermost of the
earlier ones around it. -/
structure IsRow (scopes : List Scope) : Prop where
  isScopePath : ∀ s ∈ scopes, IsScopePath s.path
  apart : scopes.Pairwise fun a b => isWithin a.path b.path = false
  root : ∃ s, scopes[0]? = some s ∧ s.path = []
  parents : HasParents scopes

/-- Adding entries keeps them as they are, and gives each its parent among the earlier ones. -/
theorem foldl_addScope (entries : List (Text × List RuleLine)) :
    (entries.foldl addScope []).map (fun s => (s.path, s.lines)) = entries ∧
      HasParents (entries.foldl addScope []) := by
  induction entries using List.reverseRecOn with
  | nil => exact ⟨rfl, fun i s h => by cases h⟩
  | append_singleton entries entry ih =>
    rw [List.foldl_append, List.foldl_cons, List.foldl_nil, addScope]
    generalize entries.foldl addScope [] = scopes at ih
    refine ⟨by rw [List.map_append, ih.1, List.map_singleton], fun i s h => ?_⟩
    rcases Nat.lt_trichotomy i scopes.length with hlt | rfl | hgt
    · rw [List.getElem?_append_left hlt] at h
      rw [List.take_append_of_le_length (Nat.le_of_lt hlt), ih.2 i s h]
    · obtain rfl := Option.some.inj (List.getElem?_concat_length.symm.trans h)
      rw [List.take_left' rfl]
    · rw [List.getElem?_eq_none (by rw [List.length_append, List.length_singleton]; omega)] at h
      cases h

theorem Arranged.isRow {vars : Variables} {scopes entries : Table (List RuleLine)} (h : Arranged vars scopes entries) :
    IsRow (entries.foldl addScope []) := by
  obtain ⟨hentries, hparent⟩ := foldl_addScope entries
  generalize entries.foldl addScope [] = row at hentries hparent
  have hpair : ∀ s ∈ row, (s.path, s.lines) ∈ entries := fun s hs => hentries ▸ List.mem_map_of_mem hs
  have hform : ∀ s ∈ row, IsScopePath s.path := fun s hs => h.isScopePath _ (hpair s hs)
  have hpaths : row.map Scope.path = entries.map Prod.fst := by
    rw [← hentries, List.map_map]
    rfl
  have hdistinct : row.Pairwise fun a b => a.path ≠ b.path := List.pairwise_map.mp (hpaths ▸ h.distinct)
  have hordered : row.Pairwise fun a b => pathBefore (a.path, a.lines) (b.path, b.lines) = true :=
    List.pairwise_map.mp (hentries ▸ h.ordered)
  have hapart : row.Pairwise fun a b => isWithin a.path b.path = false := by
    refine (hordered.and hdistinct).imp_of_mem fun {a b} ha hb hab => Bool.eq_false_iff.mpr fun hwithin => ?_
    have hdepth : scopeDepth a.path ≤ scopeDepth b.path :=
      (pathBefore_iff.mp hab.1).elim Nat.le_of_lt fun heq => Nat.le_of_eq heq.1
    by_cases hroot : b.path = []
    · rcases pathBefore_iff.mp hab.1 with hlt | ⟨-, hlater⟩
      · rw [hroot] at hlt
        exact absurd hlt (Nat.not_lt_zero _)
      · rw [hroot] at hlater
        exact hab.2 ((noLater_nil_iff.mp hlater).trans hroot.symm)
    · exact Nat.not_lt.mpr hdepth (scopeDepth_lt (hform a ha) (hform b hb) hwithin hab.2 hroot)
  refine ⟨hform, hapart, ?_, hparent⟩
  have hroot : [] ∈ row.map Scope.path := hpaths ▸ h.root
  obtain ⟨s, hs, hnil⟩ := List.mem_map.mp hroot
  cases row with
  | nil => cases hs
  | cons first rest =>
    rcases List.mem_cons.mp hs with rfl | hs
    · exact ⟨s, rfl, hnil⟩
    · have hfirst := (List.pairwise_cons.mp hapart).1 s hs
      rw [hnil, isWithin_nil] at hfirst
      cases hfirst

/-! ## Around a scope -/

variable {scopes : List Scope} {i : Nat} {s : Scope}

/-- The scopes of a row that are around a path. -/
def around (scopes : List Scope) (path : Text) : List Scope := scopes.filter fun s => isWithin path s.path

/-- The scopes before and behind one. -/
theorem IsRow.split (h : IsRow scopes) (hs : scopes[i]? = some s) :
    scopes = scopes.take i ++ s :: scopes.drop (i + 1) ∧ (∀ r ∈ scopes.take i, isWithin r.path s.path = false) ∧
      ∀ r ∈ scopes.drop (i + 1), isWithin s.path r.path = false := by
  obtain ⟨hi, hget⟩ := List.getElem?_eq_some_iff.mp hs
  have hsplit : scopes = scopes.take i ++ s :: scopes.drop (i + 1) := by
    rw [← hget, List.getElem_cons_drop, List.take_append_drop]
  have happart := h.apart
  rw [hsplit] at happart
  obtain ⟨-, hrest, hbefore⟩ := List.pairwise_append.mp happart
  exact ⟨hsplit, fun r hr => hbefore r hr s List.mem_cons_self, (List.pairwise_cons.mp hrest).1⟩

/-- No scope behind another one is around it, so the scopes around one are before it or are the scope itself. -/
theorem IsRow.around_eq (h : IsRow scopes) (hs : scopes[i]? = some s) :
    around scopes s.path = around (scopes.take i) s.path ++ [s] := by
  obtain ⟨hsplit, -, hbehind⟩ := h.split hs
  have hnone : around (scopes.drop (i + 1)) s.path = [] :=
    List.filter_eq_nil_iff.mpr fun r hr => Bool.eq_false_iff.mp (hbehind r hr)
  conv => lhs; rw [hsplit]
  rw [around, List.filter_append, List.filter_cons, if_pos (isWithin_self s.path), ← around, ← around, hnone]

/-- The parent of a scope: before it in the row, and the longest of the earlier scopes around it. -/
theorem IsRow.exists_parent (h : IsRow scopes) (hs : scopes[i]? = some s) (hne : s.path ≠ []) :
    ∃ p q, s.parent = some p ∧ p < i ∧ scopes[p]? = some q ∧ isWithin s.path q.path = true ∧
      ∀ r ∈ scopes.take i, isWithin s.path r.path = true → r.path.length ≤ q.path.length := by
  have hparent : s.parent = some (innermost (scopes.take i) s.path) := by
    rw [h.parents i s hs, if_neg (by simpa using hne)]
  have hearlier : ∀ {j : Nat} {t : Scope}, (scopes.take i)[j]? = some t → j < i ∧ scopes[j]? = some t := by
    intro j t ht
    rw [List.getElem?_take] at ht
    split at ht
    · exact ⟨‹_›, ht⟩
    · cases ht
  have hlength : ∀ {q r : Scope}, (isInside s.path r = true → r.path.length ≤ q.path.length) →
      isWithin s.path r.path = true → r.path.length ≤ q.path.length := by
    intro q r hinside hr
    by_cases hroot : r.path = []
    · rw [hroot]
      exact Nat.zero_le _
    · exact hinside (isInside_iff.mpr ⟨hroot, hr⟩)
  obtain ⟨length, hpicked⟩ := picked_innermost (scopes.take i) s.path
  generalize innermost (scopes.take i) s.path = p at hparent hpicked
  cases hpicked with
  | nothing hnone =>
    obtain ⟨root, hroot, hnil⟩ := h.root
    have hi : 0 < i := Nat.pos_of_ne_zero fun hzero => by
      rw [hzero, hroot] at hs
      exact hne (Option.some.inj hs ▸ hnil)
    refine ⟨0, root, hparent, hi, hroot, hnil ▸ isWithin_nil _, fun r hr => hlength fun hinside => ?_⟩
    rw [hnone r hr] at hinside
    cases hinside
  | scope _ q hplace hinside hmost =>
    obtain ⟨hp, hq⟩ := hearlier hplace
    exact ⟨p, q, hparent, hp, hq, (isInside_iff.mp hinside).2, fun r hr => hlength (hmost r hr)⟩

/-- The scopes around a scope are those around its parent, and it. -/
theorem IsRow.around_parent (h : IsRow scopes) (hs : scopes[i]? = some s) {p : Nat} {q : Scope} (hp : p < i)
    (hq : scopes[p]? = some q) (hwithin : isWithin s.path q.path = true)
    (hlongest : ∀ r ∈ scopes.take i, isWithin s.path r.path = true → r.path.length ≤ q.path.length) :
    around scopes s.path = around scopes q.path ++ [s] := by
  have hnone : around (scopes.drop i) q.path = [] := List.filter_eq_nil_iff.mpr fun r hr =>
    Bool.eq_false_iff.mp ((h.split hq).2.2 r ((List.drop_sublist_drop_left scopes hp).subset hr))
  have hsame : around (scopes.take i) s.path = around (scopes.take i) q.path := List.filter_congr fun r hr =>
    Bool.eq_iff_iff.mpr ⟨fun hsr => isWithin_of_length_le hsr hwithin (hlongest r hr hsr),
      fun hqr => isWithin_trans hqr hwithin⟩
  have hall : around scopes q.path = around (scopes.take i) q.path ++ around (scopes.drop i) q.path := by
    rw [around, around, around, ← List.filter_append, List.take_append_drop]
  rw [h.around_eq hs, hall, hnone, List.append_nil, hsame]

/-- The scopes on the way out from one are those around it, the innermost first. -/
theorem IsRow.outward_eq (h : IsRow scopes) (hs : scopes[i]? = some s) :
    outward scopes i = (around scopes s.path).reverse := by
  induction i using Nat.strongRecOn generalizing s with
  | _ i ih =>
    rw [outward, hs]
    by_cases hne : s.path = []
    · have hparent : s.parent = none := by
        rw [h.parents i s hs, hne]
        rfl
      have hfirst : around (scopes.take i) s.path = [] := List.filter_eq_nil_iff.mpr fun r hr => by
        have hbefore := (h.split hs).2.1 r hr
        rw [hne, isWithin_nil] at hbefore
        cases hbefore
      simp only [hparent]
      rw [h.around_eq hs, hfirst]
      rfl
    · obtain ⟨p, q, hparent, hp, hq, hwithin, hlongest⟩ := h.exists_parent hs hne
      simp only [hparent, dif_pos hp]
      rw [ih p hp hq, h.around_parent hs hp hq hwithin hlongest, List.reverse_append]
      rfl

/-! ## Around a path -/

/-- The chain of a path is made of the scopes around it, in their order. -/
theorem chain_eq {rules : RuleSet} (h : IsRow rules.scopes) (path : Text) :
    rules.chain path = around rules.scopes (scopePath path) := by
  obtain ⟨depth, hpicked⟩ := picked_scopeFor rules (scopePath path)
  have hchain : ∀ {s : Scope}, rules.scopes[rules.scopeFor (scopePath path)]? = some s →
      (∀ r ∈ rules.scopes, isWithin (scopePath path) r.path = isWithin s.path r.path) →
      rules.chain path = around rules.scopes (scopePath path) := by
    intro s hs hsame
    rw [chain, h.outward_eq hs, List.reverse_reverse]
    exact (List.filter_congr hsame).symm
  generalize rules.scopeFor (scopePath path) = i at hpicked hchain
  cases hpicked with
  | nothing hnone =>
    obtain ⟨root, hroot, hnil⟩ := h.root
    refine hchain hroot fun r hr => Bool.eq_iff_iff.mpr ⟨fun hpath => ?_, fun hwithin => ?_⟩
    · have hinside := mt isInside_iff.mpr (Bool.eq_false_iff.mp (hnone r hr))
      by_cases hempty : r.path = []
      · rw [hempty]
        exact isWithin_nil _
      · exact absurd ⟨hempty, hpath⟩ hinside
    · rw [hnil, isWithin_nil_iff] at hwithin
      rw [hwithin]
      exact isWithin_nil _
  | scope _ s hs hinside hmost =>
    obtain ⟨hne, hwithin⟩ := isInside_iff.mp hinside
    have hform := fun r hr => h.isScopePath r hr
    refine hchain hs fun r hr => Bool.eq_iff_iff.mpr ⟨fun hpath => ?_, fun hsr => isWithin_trans hsr hwithin⟩
    by_cases hempty : r.path = []
    · rw [hempty]
      exact isWithin_nil _
    · exact isWithin_of_depth_le (hform s (List.mem_of_getElem? hs)) (hform r hr) hpath hwithin hne
        (hmost r hr (isInside_iff.mpr ⟨hempty, hpath⟩))

/-- The scopes around a path get longer along the row. -/
theorem IsRow.pairwise_around (h : IsRow scopes) (path : Text) :
    (around scopes path).Pairwise fun a b => a.path.length < b.path.length := by
  refine (h.apart.filter _).imp_of_mem fun {a b} ha hb hab => Nat.lt_of_not_le fun hle => ?_
  have hwithin := isWithin_of_length_le (List.mem_filter.mp hb).2 (List.mem_filter.mp ha).2 hle
  rw [hab] at hwithin
  cases hwithin

theorem IsRow.head?_around (h : IsRow scopes) (path : Text) : (around scopes path).head?.map Scope.path = some [] := by
  obtain ⟨root, hroot, hnil⟩ := h.root
  cases scopes with
  | nil => cases hroot
  | cons first rest =>
    obtain rfl := Option.some.inj hroot
    rw [around, List.filter_cons, if_pos (hnil ▸ isWithin_nil path)]
    exact congrArg some hnil

theorem IsRow.nodup (h : IsRow scopes) : (scopes.map Scope.path).Nodup :=
  List.pairwise_map.mpr (h.apart.imp fun {a b} hab heq => by
    rw [heq, isWithin_self] at hab
    cases hab)

/-- Whatever rules are built, the chain of a path is made of the scopes around it, each of them once, from the one for
every path on, a shorter path before a longer one. Each scope but that one has a parent before it, which is the longest
of the other scopes around it. -/
theorem chain_spec {d : Draft} {defines : Table Text} {rules : RuleSet} (h : ofDraft d defines = .ok rules) :
    (∀ path : Text,
      (∀ s, s ∈ rules.chain path ↔ s ∈ rules.scopes ∧ IsAround s.path (scopePath path)) ∧
      (rules.chain path).Nodup ∧
      ((rules.chain path).Pairwise fun a b => a.path.length < b.path.length) ∧
      (rules.chain path).head?.map Scope.path = some []) ∧
    (rules.scopes.map Scope.path).Nodup ∧
    ∀ (i : Nat) (s : Scope), rules.scopes[i]? = some s →
      (s.parent = none ↔ s.path = []) ∧
      ∀ p, s.parent = some p → p < i ∧ ∃ q, rules.scopes[p]? = some q ∧ q.path ≠ s.path ∧ IsAround q.path s.path ∧
        ∀ r ∈ rules.scopes, r.path ≠ s.path → IsAround r.path s.path → r.path.length ≤ q.path.length := by
  obtain ⟨entries, harranged, rfl⟩ := exists_arranged h
  have hrow := harranged.isRow
  generalize entries.foldl addScope [] = scopes at hrow
  refine ⟨fun path => ?_, hrow.nodup, fun i s hs => ?_⟩
  · have hpairs := hrow.pairwise_around (scopePath path)
    rw [chain_eq hrow]
    refine ⟨fun s => ?_, hpairs.imp fun hlt heq => ?_, hpairs, hrow.head?_around _⟩
    · rw [around, List.mem_filter, isWithin_iff]
    · rw [heq] at hlt
      exact Nat.lt_irrefl _ hlt
  · by_cases hne : s.path = []
    · have hparent : s.parent = none := by
        rw [hrow.parents i s hs, hne]
        rfl
      rw [hparent]
      exact ⟨iff_of_true rfl hne, fun p hp => by cases hp⟩
    · obtain ⟨p, q, hparent, hp, hq, hwithin, hlongest⟩ := hrow.exists_parent hs hne
      rw [hparent]
      refine ⟨iff_of_false (Option.some_ne_none p) hne, fun p' hp' => ?_⟩
      obtain rfl := Option.some.inj hp'
      have hapart : isWithin q.path s.path = false := (hrow.split hs).2.1 q
        (List.mem_of_getElem? (by rw [List.getElem?_take, if_pos hp, hq]))
      refine ⟨hp, q, hq, fun heq => ?_, isWithin_iff.mp hwithin, fun r hr hne' hr' => ?_⟩
      · rw [heq, isWithin_self] at hapart
        cases hapart
      · have hmem : r ∈ around scopes s.path := List.mem_filter.mpr ⟨hr, isWithin_iff.mpr hr'⟩
        rw [hrow.around_eq hs] at hmem
        rcases List.mem_append.mp hmem with hmem | hmem
        · exact hlongest r (List.mem_filter.mp hmem).1 (List.mem_filter.mp hmem).2
        · exact absurd (congrArg Scope.path (List.mem_singleton.mp hmem)) hne'

/-- Scopes inside of each other, and two whose names only look alike. -/
def nestedDraft : Draft where
  scopes := [("a/b/c", []), ("a\\b/", []), ("a/bc", []), ("a", [])]

/-- The scopes in their order. -/
def nestedRules : RuleSet :=
  ⟨[], [⟨[], none, []⟩, ⟨"a", some 0, []⟩, ⟨"a/b", some 1, []⟩, ⟨"a/bc", some 1, []⟩, ⟨"a/b/c", some 2, []⟩]⟩

theorem chain_spec_nested : ofDraft nestedDraft [] = .ok nestedRules ∧
    (nestedRules.chain "a/b/x.c").map Scope.path = [[], "a", "a/b"] ∧ (nestedRules.chain "a/b/x.c").Nodup ∧
    (nestedRules.scopes.map Scope.path).Nodup := by
  have hresolve : resolveScopes nestedRules.definitions nestedDraft.scopes =
      .ok [("a/b/c", []), ("a/b", []), ("a/bc", []), ("a", [])] := by decide
  have hbuilt : ofDraft nestedDraft [] = .ok nestedRules :=
    ofDraft_eq_ok rfl rfl hresolve (by decide) (by decide) (by decide)
  obtain ⟨hchain, hnodup, -⟩ := chain_spec hbuilt
  exact ⟨hbuilt, by with_unfolding_all decide, (hchain "a/b/x.c").2.1, hnodup⟩

end Regraft.RuleSet

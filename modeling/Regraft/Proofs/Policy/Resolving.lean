import Regraft.Policy.RuleSet
import Regraft.Proofs.Policy.Containment
import Regraft.Proofs.Table
import Regraft.Proofs.Text.Order
import Mathlib.Data.List.Induction
import Mathlib.Data.List.Pairwise
/-!
# The scopes of a draft

A rule set is made of a draft in two steps. The scopes are put under the paths that their written paths come to
(`RuleSet.Resolves`), and these are put in order (`RuleSet.Arranged`): each path once, the empty one among them, and none
before a path with fewer names.
-/
namespace Regraft.RuleSet

/-! ## Under which path a scope goes -/

/-- The path that a written path of a scope comes to. -/
def pathOf? (vars : Variables) (raw : Text) : Option Text := (vars.expand raw).toOption.map scopePath

/-- The lines of the scopes whose written paths come to a path, one scope after the other. -/
def linesAt (vars : Variables) (scopes : Table (List RuleLine)) (path : Text) : List RuleLine :=
  (scopes.filter fun entry => pathOf? vars entry.1 = some path).flatMap fun entry =>
    entry.2.map fun line => { line with scope := path }

/-- Scopes under the paths that their written paths come to. -/
structure Resolves (vars : Variables) (scopes resolved : Table (List RuleLine)) : Prop where
  distinct : (resolved.map Prod.fst).Nodup
  reached : ∀ path, path ∈ resolved.map Prod.fst ↔ ∃ entry ∈ scopes, pathOf? vars entry.1 = some path
  lines : ∀ path, (Table.get? path resolved).getD [] = linesAt vars scopes path

variable {vars : Variables} {scopes resolved : Table (List RuleLine)}

theorem Resolves.concat (h : Resolves vars scopes resolved) {raw : Text} {path : Text} (lines : List RuleLine)
    (hpath : pathOf? vars raw = some path) :
    Resolves vars (scopes ++ [(raw, lines)])
      (Table.put path ((Table.get? path resolved).getD [] ++ lines.map fun line => { line with scope := path })
        resolved) := by
  refine ⟨Table.nodup_put h.distinct _ _, fun other => ?_, fun other => ?_⟩
  · rw [Table.mem_map_fst_put, h.reached]
    constructor
    · rintro (rfl | ⟨entry, hentry, hother⟩)
      · exact ⟨_, List.mem_append_right _ (List.mem_singleton_self _), hpath⟩
      · exact ⟨entry, List.mem_append_left _ hentry, hother⟩
    · rintro ⟨entry, hentry, hother⟩
      rcases List.mem_append.mp hentry with hentry | hentry
      · exact .inr ⟨entry, hentry, hother⟩
      · rw [List.mem_singleton.mp hentry, hpath] at hother
        exact .inl (Option.some.inj hother).symm
  · rw [linesAt, List.filter_append, List.flatMap_append, ← linesAt, ← h.lines]
    by_cases hother : other = path
    · subst hother
      simp [hpath]
    · rw [Table.get?_put_of_ne hother]
      simp [hpath, Ne.symm hother]

/-- The last scope is put behind the others of its path. -/
theorem resolveScopes_concat {raw : Text} {lines : List RuleLine}
    (h : resolveScopes vars (scopes ++ [(raw, lines)]) = .ok resolved) :
    ∃ before path, resolveScopes vars scopes = .ok before ∧ pathOf? vars raw = some path ∧
      resolved = Table.put path ((Table.get? path before).getD [] ++ lines.map fun line => { line with scope := path })
        before := by
  unfold resolveScopes at h ⊢
  rw [List.foldlM_append] at h
  cases hbefore : resolveScopes vars scopes with
  | error fault =>
    unfold resolveScopes at hbefore
    rw [hbefore] at h
    cases h
  | ok before =>
    unfold resolveScopes at hbefore
    rw [hbefore] at h
    cases hexpand : vars.expand raw with
    | error fault => simp [hexpand, bind, Except.bind, Except.mapError] at h
    | ok t =>
      simp only [List.foldlM_cons, List.foldlM_nil, hexpand, bind, Except.bind, Except.mapError, pure, Except.pure] at h
      exact ⟨before, scopePath t, hbefore, by rw [pathOf?, hexpand]; rfl, (Except.ok.inj h).symm⟩

theorem resolves_of_resolveScopes (h : resolveScopes vars scopes = .ok resolved) : Resolves vars scopes resolved := by
  induction scopes using List.reverseRecOn generalizing resolved with
  | nil =>
    obtain rfl := Except.ok.inj h
    exact ⟨List.nodup_nil, by simp, fun path => rfl⟩
  | append_singleton scopes entry ih =>
    obtain ⟨before, path, hbefore, hpath, rfl⟩ := resolveScopes_concat h
    exact (ih hbefore).concat entry.2 hpath

/-! ## The order of scopes -/

/-- Scopes in order, each path once, with the lines that go there. -/
structure Arranged (vars : Variables) (scopes entries : Table (List RuleLine)) : Prop where
  distinct : (entries.map Prod.fst).Nodup
  ordered : entries.Pairwise fun a b => pathBefore a b = true
  root : [] ∈ entries.map Prod.fst
  isScopePath : ∀ entry ∈ entries, IsScopePath entry.1
  lines : ∀ entry ∈ entries, entry.2 = linesAt vars scopes entry.1

theorem pathBefore_iff {a b : Text × List RuleLine} : pathBefore a b = true ↔
    scopeDepth a.1 < scopeDepth b.1 ∨ scopeDepth a.1 = scopeDepth b.1 ∧ noLater a.1 b.1 = true := by
  unfold pathBefore
  split
  · rename_i heq
    simp [heq]
  · rename_i hne
    simp [hne]

theorem pathBefore_trans {a b c : Text × List RuleLine} (hab : pathBefore a b = true) (hbc : pathBefore b c = true) :
    pathBefore a c = true := by
  rw [pathBefore_iff] at hab hbc ⊢
  rcases hab with hab | ⟨hab, hab'⟩ <;> rcases hbc with hbc | ⟨hbc, hbc'⟩
  · exact .inl (Nat.lt_trans hab hbc)
  · exact .inl (hbc ▸ hab)
  · exact .inl (hab ▸ hbc)
  · exact .inr ⟨hab.trans hbc, noLater_trans hab' hbc'⟩

theorem pathBefore_total (a b : Text × List RuleLine) : (pathBefore a b || pathBefore b a) = true := by
  rw [Bool.or_eq_true, pathBefore_iff, pathBefore_iff]
  rcases Nat.lt_trichotomy (scopeDepth a.1) (scopeDepth b.1) with hlt | heq | hgt
  · exact .inl (.inl hlt)
  · exact (Bool.or_eq_true _ _ ▸ noLater_total a.1 b.1).imp (fun h => .inr ⟨heq, h⟩) fun h => .inr ⟨heq.symm, h⟩
  · exact .inr (.inl hgt)

/-- The scopes with one for every path, which has no lines if none are written for it. -/
def withRoot (resolved : Table (List RuleLine)) : Table (List RuleLine) :=
  if Table.has [] resolved then resolved else Table.put [] [] resolved

theorem Resolves.withRoot (h : Resolves vars scopes resolved) :
    ((withRoot resolved).map Prod.fst).Nodup ∧ [] ∈ (withRoot resolved).map Prod.fst ∧
      (∀ path ∈ (withRoot resolved).map Prod.fst, IsScopePath path) ∧
      ∀ path, (Table.get? path (withRoot resolved)).getD [] = linesAt vars scopes path := by
  have hform : ∀ path ∈ resolved.map Prod.fst, IsScopePath path := by
    intro path hpath
    obtain ⟨entry, -, hentry⟩ := (h.reached path).mp hpath
    obtain ⟨t, -, rfl⟩ := Option.map_eq_some_iff.mp hentry
    exact isScopePath_scopePath t
  unfold RuleSet.withRoot
  cases hroot : Table.get? [] resolved with
  | some lines =>
    rw [if_pos (by rw [Table.has, hroot]; rfl)]
    exact ⟨h.distinct, List.mem_map_of_mem (Table.mem_of_get?_eq_some hroot), hform, h.lines⟩
  | none =>
    rw [if_neg (by rw [Table.has, hroot]; exact Bool.false_ne_true)]
    refine ⟨Table.nodup_put h.distinct _ _, Table.mem_map_fst_put.mpr (.inl rfl), fun path hpath => ?_, fun path => ?_⟩
    · rcases Table.mem_map_fst_put.mp hpath with rfl | hpath
      · exact .root
      · exact hform path hpath
    · by_cases hpath : path = []
      · rw [← h.lines, hpath, Table.get?_put_self, hroot]
        rfl
      · rw [Table.get?_put_of_ne hpath, h.lines]

/-- A rule set holds the scopes of its draft in order. -/
theorem exists_arranged {d : Draft} {defines : Table Text} {rules : RuleSet} (h : ofDraft d defines = .ok rules) :
    ∃ entries, Arranged (Table.overlay d.definitions defines) d.scopes entries ∧
      rules = ⟨Table.overlay d.definitions defines, entries.foldl addScope []⟩ := by
  unfold ofDraft at h
  cases hundeclared : undeclared? d defines with
  | some r => simp [hundeclared] at h
  | none =>
    cases hresolve : resolveScopes (Table.overlay d.definitions defines) d.scopes with
    | error fault => simp [hundeclared, hresolve, bind, Except.bind] at h
    | ok resolved =>
      simp only [hundeclared, hresolve, bind, Except.bind, pure, Except.pure] at h
      obtain ⟨hdistinct, hroot, hform, hlines⟩ := (resolves_of_resolveScopes hresolve).withRoot
      refine ⟨(withRoot resolved).mergeSort pathBefore, ⟨?_, ?_, ?_, fun entry hentry => ?_, fun entry hentry => ?_⟩,
        (Except.ok.inj h).symm⟩
      · exact ((List.mergeSort_perm _ _).map _).nodup_iff.mpr hdistinct
      · exact List.pairwise_mergeSort (fun a b c => @pathBefore_trans a b c) pathBefore_total _
      · exact ((List.mergeSort_perm _ _).map _).mem_iff.mpr hroot
      · exact hform _ (List.mem_map_of_mem (List.mem_mergeSort.mp hentry))
      · rw [← hlines, Table.get?_eq_some_of_mem hdistinct (List.mem_mergeSort.mp hentry)]
        rfl

/-- Scopes in order, each with its parent among those before it, are those of the rule set. -/
theorem ofDraft_eq_ok {d : Draft} {defines : Table Text} {rules : RuleSet}
    (hdefinitions : rules.definitions = Table.overlay d.definitions defines) (hdeclared : undeclared? d defines = none)
    (hresolve : resolveScopes rules.definitions d.scopes = .ok resolved)
    (hsame : (withRoot resolved).Perm (rules.scopes.map fun s => (s.path, s.lines)))
    (hordered : (rules.scopes.map fun s => (s.path, s.lines)).Pairwise fun a b => pathBefore b a = false)
    (hparents : (rules.scopes.map fun s => (s.path, s.lines)).foldl addScope [] = rules.scopes) :
    ofDraft d defines = .ok rules := by
  generalize rules.scopes.map (fun s => (s.path, s.lines)) = entries at hsame hordered hparents
  have hstrict : ∀ a ∈ entries, ∀ b ∈ entries, a ≠ b → pathBefore a b = false ∨ pathBefore b a = false := by
    have hsymm : Std.Symm fun a b => pathBefore a b = false ∨ pathBefore b a = false := ⟨fun _ _ => Or.symm⟩
    have heither : entries.Pairwise fun a b => pathBefore a b = false ∨ pathBefore b a = false :=
      hordered.imp fun h => .inr h
    exact fun a ha b hb hne => heither.forall ha hb hne
  have hsorted : (withRoot resolved).mergeSort pathBefore = entries := by
    refine List.Perm.eq_of_pairwise (fun a b ha hb hab hba => ?_)
      (List.pairwise_mergeSort (fun a b c => @pathBefore_trans a b c) pathBefore_total _) (hordered.imp fun {a b} hba => ?_)
      ((List.mergeSort_perm _ _).trans hsame)
    · refine Decidable.byContradiction fun hne => ?_
      rcases hstrict a (hsame.mem_iff.mp (List.mem_mergeSort.mp ha)) b hb hne with hno | hno
      · rw [hab] at hno
        cases hno
      · rw [hba] at hno
        cases hno
    · simpa [hba] using pathBefore_total a b
  have hbuilt : ofDraft d defines = .ok ⟨rules.definitions, ((withRoot resolved).mergeSort pathBefore).foldl addScope []⟩ := by
    rw [hdefinitions] at hresolve ⊢
    simp only [ofDraft, hdeclared, hresolve, bind, Except.bind, pure, Except.pure]
    rfl
  rw [hbuilt, hsorted, hparents]

end Regraft.RuleSet

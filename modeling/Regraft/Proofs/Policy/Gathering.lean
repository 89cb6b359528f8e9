import Regraft.Proofs.Policy.Reading
import Regraft.Proofs.Policy.Chain
import Regraft.Proofs.Policy.Folding
/-!
# How the lines of files gather in scopes

A scope can be written in several ways: with slashes at the ends, with backslashes, with variables. A draft keeps the
lines of each spelling together (`Draft.Keeps`), and a rule set puts the spellings of a scope one behind the other, in the
order in which the draft opened them. So the lines of a scope stand in the order in which they were read exactly when
nothing under one of its spellings was read after something under a spelling opened later (`RuleSet.Unmixed`).

* `RuleSet.lines_spec`: the lines of a scope, their order, and which of them then override which.
-/
namespace Regraft

/-- A line, which comes from a file of some number, is read no later than another one. -/
def ReadNoLater (a b : Nat × RuleLine) : Prop := a.1 < b.1 ∨ a.1 = b.1 ∧ a.2.line ≤ b.2.line

instance (a b : Nat × RuleLine) : Decidable (ReadNoLater a b) :=
  inferInstanceAs (Decidable (a.1 < b.1 ∨ a.1 = b.1 ∧ a.2.line ≤ b.2.line))

theorem ReadNoLater.refl (a : Nat × RuleLine) : ReadNoLater a a := .inr ⟨rfl, Nat.le_refl _⟩

/-- Of two lines in order, the one that is not read first stands behind. -/
theorem exists_between {lines : List (Nat × RuleLine)} (h : lines.Pairwise ReadNoLater) {a b : Nat × RuleLine}
    (ha : a ∈ lines) (hb : b ∈ lines) (hab : ¬ReadNoLater b a) :
    ∃ front middle back, lines = front ++ a :: middle ++ b :: back := by
  obtain ⟨front, rest, rfl⟩ := List.append_of_mem ha
  obtain ⟨-, -, hfront⟩ := List.pairwise_append.mp h
  rcases List.mem_append.mp hb with hb | hb
  · exact absurd (hfront b hb a List.mem_cons_self) hab
  · rcases List.mem_cons.mp hb with rfl | hb
    · exact absurd (ReadNoLater.refl b) hab
    · obtain ⟨middle, back, rfl⟩ := List.append_of_mem hb
      exact ⟨front, middle, back, by simp⟩

namespace Draft

/-- The rule lines of files, each with the number of its file, in the order in which they are read. -/
def linesRead (files : List (Text × Text)) : List (Nat × RuleLine) :=
  files.zipIdx.flatMap fun file => (linesIn file.1).map fun line => (file.2, line)

theorem map_snd_linesRead (files : List (Text × Text)) : (linesRead files).map Prod.snd = files.flatMap linesIn := by
  have hlines : ∀ file : (Text × Text) × Nat,
      ((linesIn file.1).map fun line => (file.2, line)).map Prod.snd = linesIn file.1 := fun file => by
    rw [List.map_map]
    exact List.map_id _
  simp only [linesRead, List.map_flatMap, hlines]
  rw [← List.flatMap_map Prod.fst linesIn, List.zipIdx_map_fst]

theorem pairwise_linesRead (files : List (Text × Text)) : (linesRead files).Pairwise ReadNoLater := by
  refine List.pairwise_flatMap.mpr ⟨fun file _ => ?_, ?_⟩
  · exact List.pairwise_map.mpr ((pairwise_linesIn file.1).imp fun hab => .inr ⟨rfl, hab⟩)
  · refine (List.pairwise_iff_getElem.mpr fun i j hi hj hij => ?_)
    intro a ha b hb
    obtain ⟨line, -, rfl⟩ := List.mem_map.mp ha
    obtain ⟨line', -, rfl⟩ := List.mem_map.mp hb
    exact .inl (by simpa using hij)

end Draft

namespace RuleSet

/-- The written paths of a draft that come to a path, in the order in which they were opened. -/
def spellings (vars : Variables) (d : Draft) (path : Text) : List Text :=
  (d.scopes.map Prod.fst).filter fun raw => pathOf? vars raw = some path

/-- Lines that were read, put in groups by their written paths. -/
def gather (read : List (Nat × RuleLine)) (written : List Text) : List (Nat × RuleLine) :=
  written.flatMap fun raw => read.filter fun a => a.2.scope = raw

/-- Nothing under a written path was read after something under a later one. -/
def Unmixed (read : List (Nat × RuleLine)) (written : List Text) : Prop :=
  written.Pairwise fun raw later =>
    ∀ a ∈ read, a.2.scope = raw → ∀ b ∈ read, b.2.scope = later → ReadNoLater a b

instance (read : List (Nat × RuleLine)) (written : List Text) : Decidable (Unmixed read written) :=
  inferInstanceAs (Decidable (written.Pairwise fun raw later =>
    ∀ a ∈ read, a.2.scope = raw → ∀ b ∈ read, b.2.scope = later → ReadNoLater a b))

section
variable {read : List (Nat × RuleLine)} {written : List Text}

/-- The lines in groups are the same lines. -/
theorem gather_perm (h : written.Nodup) : (gather read written).Perm (read.filter fun a => a.2.scope ∈ written) := by
  induction written with
  | nil => simp [gather]
  | cons raw written ih =>
    obtain ⟨hraw, hrest⟩ := List.nodup_cons.mp h
    have hfirst : (read.filter fun a => a.2.scope ∈ raw :: written).filter (fun a => a.2.scope = raw) =
        read.filter fun a => a.2.scope = raw := by
      rw [List.filter_filter]
      exact List.filter_congr fun a _ => by simp +contextual
    have hothers : (read.filter fun a => a.2.scope ∈ raw :: written).filter (fun a => !decide (a.2.scope = raw)) =
        read.filter fun a => a.2.scope ∈ written := by
      rw [List.filter_filter]
      refine List.filter_congr fun a _ => ?_
      by_cases ha : a.2.scope = raw
      · simp [ha, hraw]
      · simp [ha]
    have hparts := List.filter_append_perm (fun a => decide (a.2.scope = raw))
      (read.filter fun a => a.2.scope ∈ raw :: written)
    rw [hfirst, hothers] at hparts
    exact ((ih hrest).append_left _).trans hparts

theorem pairwise_gather (h : read.Pairwise ReadNoLater) :
    (gather read written).Pairwise ReadNoLater ↔ Unmixed read written := by
  rw [gather, List.pairwise_flatMap, Unmixed]
  constructor
  · rintro ⟨-, hgroups⟩
    refine hgroups.imp fun hab a ha hraw b hb hlater => hab a ?_ b ?_
    · exact List.mem_filter.mpr ⟨ha, decide_eq_true hraw⟩
    · exact List.mem_filter.mpr ⟨hb, decide_eq_true hlater⟩
  · intro hunmixed
    refine ⟨fun raw _ => h.filter _, hunmixed.imp fun hab a ha b hb => ?_⟩
    obtain ⟨ha, hraw⟩ := List.mem_filter.mp ha
    obtain ⟨hb, hlater⟩ := List.mem_filter.mp hb
    exact hab a ha (of_decide_eq_true hraw) b hb (of_decide_eq_true hlater)

end

/-- The lines that go under a path are those that were read for its spellings, in groups. -/
theorem linesAt_eq_gather {vars : Variables} {d : Draft} {read : List (Nat × RuleLine)}
    (h : Draft.Keeps d (read.map Prod.snd)) (path : Text) :
    linesAt vars d.scopes path = (gather read (spellings vars d path)).map fun a => { a.2 with scope := path } := by
  have hentry : ∀ entry ∈ d.scopes, entry.2 = (read.filter fun a => a.2.scope = entry.1).map Prod.snd := by
    intro entry hentry
    have hlines := h.lines entry.1
    rw [Table.get?_eq_some_of_mem h.distinct hentry, List.filter_map] at hlines
    exact hlines
  rw [linesAt, gather, spellings, List.filter_map, List.flatMap_map, List.map_flatMap]
  refine List.flatMap_congr fun entry hmem => ?_
  rw [hentry entry (List.mem_filter.mp hmem).1, List.map_map]
  rfl

/-- A line was read for a path exactly when it is written under a spelling of the path. -/
theorem filter_spellings {vars : Variables} {d : Draft} {read : List (Nat × RuleLine)}
    (h : Draft.Keeps d (read.map Prod.snd)) (path : Text) :
    read.filter (fun a => a.2.scope ∈ spellings vars d path) =
      read.filter fun a => pathOf? vars a.2.scope = some path :=
  List.filter_congr fun a ha => by
    have hopened := h.opened a.2 (List.mem_map_of_mem ha)
    simp only [spellings, List.mem_filter, hopened, true_and, decide_eq_true_eq]

/-- What is in the lines of a scope is in the lines of a key that apply to a path below that scope. -/
theorem linesFor_eq {rules : RuleSet} {path : Text} {s : Scope} (hs : s ∈ rules.chain path) {front back : List RuleLine}
    {line : RuleLine} (hlines : s.lines = front ++ line :: back) :
    ∃ before after, rules.linesFor line.kind path = before ++ line :: after ∧
      ∀ a ∈ front, a.kind = line.kind → a ∈ before := by
  obtain ⟨outer, inner, hchain⟩ := List.append_of_mem hs
  refine ⟨(outer.flatMap Scope.lines ++ front).filter fun a => a.kind = line.kind,
    (back ++ inner.flatMap Scope.lines).filter fun a => a.kind = line.kind, ?_, fun a ha hkind => ?_⟩
  · rw [linesFor, hchain, List.flatMap_append, List.flatMap_cons, hlines]
    simp
  · exact List.mem_filter.mpr ⟨List.mem_append_right _ ha, decide_eq_true hkind⟩

/-- Whatever files are read into a rule set, the lines of a scope are those that were read for it, with the lines of
each of its spellings in the order in which they were read. They all stand in that order exactly when the spellings are
unmixed. Then a line that does not append has the rule of a path start anew behind every line of its scope and key that
was read before it, unless it does not count behind one of the base domain. -/
theorem lines_spec {files : List (Text × Text)} {d : Draft} {defines : Table Text} {rules : RuleSet} {s : Scope}
    (hread : Draft.readTexts files = .ok d) (hbuilt : ofDraft d defines = .ok rules) (hs : s ∈ rules.scopes) :
    (Draft.linesRead files).Pairwise ReadNoLater ∧
    ∃ placed : List (Nat × RuleLine),
      s.lines = (placed.map fun a => { a.2 with scope := s.path }) ∧
      placed.Perm ((Draft.linesRead files).filter fun a => pathOf? rules.definitions a.2.scope = some s.path) ∧
      (∀ raw ∈ spellings rules.definitions d s.path,
        ((Draft.linesRead files).filter fun a => a.2.scope = raw).Sublist placed) ∧
      (placed.Pairwise ReadNoLater ↔ Unmixed (Draft.linesRead files) (spellings rules.definitions d s.path)) ∧
      (Unmixed (Draft.linesRead files) (spellings rules.definitions d s.path) →
        ∀ a ∈ placed, ∀ b ∈ placed, ¬ReadNoLater b a → a.2.kind = b.2.kind → b.2.append = false →
          ∀ path, s ∈ rules.chain path → ∃ before after,
            rules.linesFor b.2.kind path = before ++ { b.2 with scope := s.path } :: after ∧
            { a.2 with scope := s.path } ∈ before ∧
            ((b.2.baseDomain = true ∨ ∀ line ∈ before, line.baseDomain = false) →
              rules.rule? b.2.kind path = Rule.ofLines ({ b.2 with scope := s.path } :: after))) := by
  have hkeeps : Draft.Keeps d ((Draft.linesRead files).map Prod.snd) := by
    rw [Draft.map_snd_linesRead]
    exact Draft.keeps_readTexts hread
  have hpairs := Draft.pairwise_linesRead files
  have hwritten : (spellings rules.definitions d s.path).Nodup := hkeeps.distinct.filter _
  have hplaced : s.lines = (gather (Draft.linesRead files) (spellings rules.definitions d s.path)).map fun a =>
      { a.2 with scope := s.path } := by
    rw [← linesAt_eq_gather hkeeps]
    obtain ⟨entries, harranged, rfl⟩ := exists_arranged hbuilt
    have hentry : (s.path, s.lines) ∈ entries := by
      rw [← (foldl_addScope entries).1]
      exact List.mem_map_of_mem hs
    exact harranged.lines _ hentry
  refine ⟨hpairs, _, hplaced, ?_, fun raw hraw => ?_, pairwise_gather hpairs, fun hunmixed => ?_⟩
  · rw [← filter_spellings hkeeps]
    exact gather_perm hwritten
  · exact List.sublist_flatten_of_mem (List.mem_map_of_mem hraw)
  · intro a ha b hb hlater hkind hplain path hpath
    obtain ⟨front, middle, back, hsplit⟩ := exists_between ((pairwise_gather hpairs).mpr hunmixed) ha hb hlater
    rw [hsplit, List.map_append, List.map_cons] at hplaced
    obtain ⟨before, after, hlines, hbefore⟩ := linesFor_eq hpath hplaced
    refine ⟨before, after, hlines, hbefore _ (List.mem_map_of_mem (by simp)) hkind, fun hcounts => ?_⟩
    rw [rule?, hlines]
    exact Rule.ofLines_of_plain hplain hcounts

/-- A line `SkipIf` with one predicate that takes no operands. -/
def skipLine (kind : PredicateKind) (scope source : Text) (line : Nat) : RuleLine where
  kind := .skipIf
  scope := scope
  predicates := [⟨kind, [], false⟩]
  value := []
  append := false
  baseDomain := false
  source := source
  line := line

/-- The second file changes what the first one says of a scope, which it spells in another way. -/
def respelled : List (Text × Text) := [("[A]\nSkipIf=Always\n", "base.ini"), ("[A/]\nSkipIf=Never\n", "local.ini")]

def respelledDraft : Draft where
  scopes := [("A", [skipLine .always "A" "base.ini" 2]), ("A/", [skipLine .never "A/" "local.ini" 2])]

/-- The scope of both files. -/
def respelledScope : Scope := ⟨"A", some 0, [skipLine .always "A" "base.ini" 2, skipLine .never "A" "local.ini" 2]⟩

theorem lines_spec_respelled : Draft.readTexts respelled = .ok respelledDraft ∧
    ofDraft respelledDraft [] = .ok ⟨[], [⟨[], none, []⟩, respelledScope]⟩ ∧
    ∃ placed : List (Nat × RuleLine), respelledScope.lines = (placed.map fun a => { a.2 with scope := "A" }) ∧
      placed.Pairwise ReadNoLater := by
  have hread : Draft.readTexts respelled = .ok respelledDraft := by with_unfolding_all rfl
  have hresolve : resolveScopes [] respelledDraft.scopes = .ok [("A", respelledScope.lines)] := by decide
  have hbuilt : ofDraft respelledDraft [] = .ok ⟨[], [⟨[], none, []⟩, respelledScope]⟩ :=
    ofDraft_eq_ok rfl rfl hresolve (by decide) (by decide) (by decide)
  obtain ⟨-, placed, hlines, -, -, hordered, -⟩ := lines_spec hread hbuilt (s := respelledScope) (by simp)
  have hunmixed : Unmixed (Draft.linesRead respelled) (spellings [] respelledDraft "A") := by decide
  exact ⟨hread, hbuilt, placed, hlines, hordered.mpr hunmixed⟩

/-- The second file changes what the first one says of a scope, which the first one spells in another way before. -/
def overridden : List (Text × Text) :=
  [("[A]\n[A/]\nSkipIf=Always\n", "base.ini"), ("[A]\nSkipIf=Never\n", "local.ini")]

def overriddenDraft : Draft where
  scopes := [("A", [skipLine .never "A" "local.ini" 2]), ("A/", [skipLine .always "A/" "base.ini" 3])]

/-- The scope of both files, in which the line of the first file is the last one. -/
def overriddenScope : Scope := ⟨"A", some 0, [skipLine .never "A" "local.ini" 2, skipLine .always "A" "base.ini" 3]⟩

def overriddenRules : RuleSet := ⟨[], [⟨[], none, []⟩, overriddenScope]⟩

/-- The lines of a scope are not in the order in which they were read, and what the first file says stands. -/
theorem lines_overridden : Draft.readTexts overridden = .ok overriddenDraft ∧
    ofDraft overriddenDraft [] = .ok overriddenRules ∧
    (∀ placed : List (Nat × RuleLine), (∀ a ∈ placed, a ∈ Draft.linesRead overridden) →
      overriddenScope.lines = (placed.map fun a => { a.2 with scope := "A" }) → ¬placed.Pairwise ReadNoLater) ∧
    (overriddenRules.rule? .skipIf "A/x.cpp").map Rule.predicates = some [⟨.always, [], false⟩] := by
  have hread : Draft.linesRead overridden =
      [(0, skipLine .always "A/" "base.ini" 3), (1, skipLine .never "A" "local.ini" 2)] := by with_unfolding_all rfl
  have hfile : ∀ a ∈ Draft.linesRead overridden, a.1 = if a.2.source = "local.ini" then 1 else 0 := by
    rw [hread]
    decide
  have hresolve : resolveScopes [] overriddenDraft.scopes = .ok [("A", overriddenScope.lines)] := by decide
  have hbuilt : ofDraft overriddenDraft [] = .ok overriddenRules :=
    ofDraft_eq_ok rfl rfl hresolve (by decide) (by decide) (by decide)
  refine ⟨by with_unfolding_all rfl, hbuilt, fun placed hplaced hlines hordered => ?_,
    by with_unfolding_all decide⟩
  obtain ⟨a, rest, rfl, ha, hrest⟩ := List.map_eq_cons_iff.mp hlines.symm
  obtain ⟨b, rest, rfl, hb, -⟩ := List.map_eq_cons_iff.mp hrest
  have ha' : a.2.source = "local.ini" := congrArg RuleLine.source ha
  have hb' : b.2.source = "base.ini" := congrArg RuleLine.source hb
  have hlast : a.1 = 1 := by rw [hfile a (hplaced a (by simp)), if_pos ha']
  have hfirst : b.1 = 0 := by
    rw [hfile b (hplaced b (by simp)), hb']
    decide
  rcases (List.pairwise_cons.mp hordered).1 b List.mem_cons_self with hlt | ⟨heq, -⟩ <;> omega

end RuleSet

end Regraft

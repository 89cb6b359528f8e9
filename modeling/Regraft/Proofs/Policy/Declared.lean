import Regraft.Proofs.Policy.Origins
import Regraft.Proofs.Policy.Reading
import Regraft.Proofs.Policy.References
/-!
# Variables that rules refer to

While rule files are read, a draft lists the names that values and headers refer to (`Draft.Lists`), and rules are made only
if every listed name is that of a variable (`RuleSet.has_of_mem_listed`). What is expanded later, an operand, a target or
the value of a variable, refers to listed names, but for two gaps: nothing lists what the values of the defines refer to,
and what is cut into operands may refer to ends of listed names.

* `Variables.expand_ne_undefined`: texts that refer to variables only, through all their values, expand or are too deep;
* `RuleSet.evaluate_defined`: outside of the gaps, no path is looked up with a variable that is undefined.
-/
namespace Regraft

/-! ## Expanding -/

namespace Variables

/-- A text whose references all lead to variables, whose values are such texts in turn, expands or is too deep. -/
theorem expand_ne_undefined {vars : Variables} {t name : Text}
    (hvalues : ∀ e ∈ vars, ∀ name ∈ referencesIn e.2, Table.has name vars = true)
    (ht : ∀ name ∈ referencesIn t, Table.has name vars = true) : vars.expand t ≠ .error (.undefined name) := by
  have hfrom : ∀ (whole : Text) (left : Nat) (t : Text), (∀ name ∈ referencesIn t, Table.has name vars = true) →
      vars.expandFrom whole left t ≠ .error (.undefined name) := by
    intro whole left
    induction left with
    | zero => exact fun t _ h => by cases h
    | succ left ih =>
      intro t ht h
      rw [expandFrom] at h
      rcases bind_eq_error.mp h with h | ⟨_, -, h⟩
      · obtain ⟨part, hpart, h⟩ := exists_of_mapM_eq_error h
        cases part with
        | char c => cases h
        | reference inner =>
          have hinner := ht inner (List.mem_filterMap.mpr ⟨_, hpart, rfl⟩)
          obtain ⟨value, hvalue⟩ := Option.isSome_iff_exists.mp hinner
          simp only [hvalue] at h
          exact ih value (hvalues _ (Table.mem_of_get?_eq_some hvalue)) h
      · cases h
  exact hfrom t _ t ht

end Variables

/-! ## References of a draft -/

/-- The texts of a rule line that are expanded when a path is looked up. -/
def RuleLine.texts (line : RuleLine) : List Text :=
  line.value :: (line.predicates.flatMap Predicate.operands).map Operand.text

namespace Draft

/-- The names that a draft remembers to be referred to. -/
def listed (d : Draft) : List Text := d.references.map Reference.name

/-- The names that a line refers to are listed, or cut off from listed ones. -/
def ListsLine (d : Draft) (line : RuleLine) : Prop :=
  ∀ t ∈ line.texts, ∀ name ∈ referencesIn t, Yields d.listed name

/-- A draft lists what the values of its variables and its lines refer to. -/
structure Lists (d : Draft) : Prop where
  values : ∀ e ∈ d.definitions, referencesIn e.2 ⊆ d.listed
  lines : ∀ e ∈ d.scopes, ∀ line ∈ e.2, d.ListsLine line

variable {d d' : Draft} {source : Text} {number : Nat} {line : RuleLine}

theorem lists_nothing : Lists {} :=
  ⟨fun _ h => absurd h List.not_mem_nil, fun _ h => absurd h List.not_mem_nil⟩

@[simp] theorem listed_refer (d : Draft) (t source : Text) (number : Nat) :
    (d.refer t source number).listed = d.listed ++ referencesIn t := by
  simp [listed, refer, Function.comp_def]

@[simp] theorem listed_openScope (d : Draft) (path : Text) : (d.openScope path).listed = d.listed := by
  unfold openScope
  split <;> rfl

@[simp] theorem listed_addLine (d : Draft) (line : RuleLine) : (d.addLine line).listed = d.listed := rfl

theorem ListsLine.mono (h : d.ListsLine line) (hsub : d.listed ⊆ d'.listed) : d'.ListsLine line :=
  fun t ht name hname => (h t ht name hname).mono hsub

theorem Lists.refer (h : d.Lists) (t source : Text) (number : Nat) : (d.refer t source number).Lists := by
  have hsub : d.listed ⊆ (d.refer t source number).listed := by simp
  exact ⟨fun e he => List.Subset.trans (h.values e he) hsub, fun e he line hline => (h.lines e he line hline).mono hsub⟩

theorem Lists.openScope (h : d.Lists) (path : Text) : (d.openScope path).Lists := by
  have hlisted := listed_openScope d path
  unfold Draft.openScope at hlisted ⊢
  split
  · exact h
  · refine ⟨h.values, fun e he line hline => ?_⟩
    rcases Table.mem_put he with rfl | he
    · cases hline
    · exact h.lines e he line hline

theorem Lists.addLine (h : d.Lists) (hline : d.ListsLine line) : (d.addLine line).Lists := by
  refine ⟨h.values, fun e he other hother => ?_⟩
  rcases Table.mem_put he with rfl | he
  · rcases List.mem_append.mp hother with hother | hother
    · cases hlines : Table.get? line.scope d.scopes with
      | none => simp [hlines] at hother
      | some lines =>
        rw [hlines] at hother
        exact h.lines _ (Table.mem_of_get?_eq_some hlines) other hother
    · exact List.mem_singleton.mp hother ▸ hline
  · exact h.lines e he other hother

theorem Lists.define (h : d.Lists) (name : Text) {value : Text} (hvalue : referencesIn value ⊆ d.listed) :
    { d with definitions := Table.put name value d.definitions }.Lists := by
  refine ⟨fun e he => ?_, h.lines⟩
  rcases Table.mem_put he with rfl | he
  · exact hvalue
  · exact h.values e he

theorem Lists.openAll (h : d.Lists) (paths : List Text) (source : Text) (number : Nat) :
    (paths.foldl (fun d path => (d.refer path source number).openScope path) d).Lists := by
  induction paths generalizing d with
  | nil => exact h
  | cons path paths ih => exact ih ((h.refer path source number).openScope path)

theorem Lists.addAll (h : d.Lists) (hline : d.ListsLine line) (paths : List Text) :
    (paths.foldl (fun d path => d.addLine { line with scope := path }) d).Lists := by
  induction paths generalizing d with
  | nil => exact h
  | cons path paths ih =>
    have hmoved : d.ListsLine { line with scope := path } := hline
    exact ih (h.addLine hmoved) hline

/-- A rule refers to what its value, as it is written, yields. -/
theorem yields_of_readRule {key value t name : Text} (h : readRule key value source number = .ok line)
    (ht : t ∈ line.texts) (hname : name ∈ referencesIn t) : Yields (referencesIn value) name := by
  unfold readRule at h
  simp only [throw, throwThe, MonadExceptOf.throw] at h
  split at h
  · cases h
  · split at h
    · cases h
    · obtain rfl := Except.ok.inj h
      obtain rfl := List.mem_singleton.mp ht
      exact .inl hname
  · obtain ⟨predicates, hread, h⟩ := bind_eq_ok.mp h
    obtain rfl := Except.ok.inj h
    rcases List.mem_cons.mp ht with rfl | ht
    · cases hname
    · obtain ⟨o, ho, rfl⟩ := List.mem_map.mp ht
      obtain ⟨p, hp, ho⟩ := List.mem_flatMap.mp ho
      exact Yields.of_parsePredicates (mapError_eq_ok.mp hread) hp ho (.inl hname)

theorem Lists.readDirective (h : d.Lists) {here : Section} {t : Text}
    (hread : d.readDirective here t source number = .ok d') : d'.Lists := by
  obtain ⟨key, value, -, ⟨-, name, rfl⟩ | ⟨paths, rule, -, hrule, rfl⟩⟩ := readDirective_cases hread
  · exact (h.refer (strip value) source number).define name (by simp)
  · refine (h.refer _ _ _).addAll (fun t ht name hname => ?_) paths
    exact (yields_of_readRule hrule ht hname).mono (by simp)

theorem Lists.readLine (h : d.Lists) {here there : Section} {raw : Text}
    (hread : Draft.readLine source (here, d) number raw = .ok (there, d')) : d'.Lists := by
  obtain ⟨-, ⟨-, rfl | ⟨paths, rfl⟩⟩ | ⟨-, hdirective⟩⟩ := readLine_cases hread
  · exact h
  · exact h.openAll paths source number
  · exact h.readDirective hdirective

theorem Lists.readLines {numbered : List (Text × Nat)} : ∀ {here : Section} {d : Draft}, d.Lists →
    Draft.readLines source (here, d) numbered = .ok d' → d'.Lists := by
  induction numbered with
  | nil =>
    intro here d h hread
    exact Except.ok.inj hread ▸ h
  | cons line rest ih =>
    intro here d h hread
    obtain ⟨raw, number⟩ := line
    rw [Draft.readLines] at hread
    cases hline : Draft.readLine source (here, d) number raw with
    | error cause => simp [hline] at hread
    | ok state =>
      simp only [hline] at hread
      exact ih (h.readLine hline) hread

/-- Reading a file, a draft keeps listing what is referred to. -/
theorem Lists.readText (h : d.Lists) {text : Text} (hread : d.readText text source = .ok d') : d'.Lists :=
  h.readLines hread

end Draft

namespace RuleSet

variable {d : Draft} {defines : Table Text} {rules : RuleSet}

/-! ## References of a rule set -/

/-- Every name that a draft lists is that of a variable. -/
theorem has_of_mem_listed (h : ofDraft d defines = .ok rules) {name : Text} (hname : name ∈ d.listed) :
    Table.has name rules.definitions = true := by
  obtain ⟨_, _, rfl⟩ := exists_arranged h
  obtain ⟨r, hr, rfl⟩ := List.mem_map.mp hname
  unfold ofDraft at h
  cases hundeclared : undeclared? d defines with
  | some r => simp [hundeclared] at h
  | none =>
    have hknown := List.find?_eq_none.mp hundeclared r hr
    rw [Table.has_iff, Table.mem_map_fst_overlay, ← Table.has_iff, ← Table.has_iff]
    cases hhas : Table.has r.name d.definitions with
    | true => exact .inl rfl
    | false => exact .inr (by simpa [hhas] using hknown)

/-- A variable has a value of the draft or of the defines. -/
theorem mem_definitions (h : ofDraft d defines = .ok rules) {e : Text × Text} (he : e ∈ rules.definitions) :
    e ∈ d.definitions ∨ e ∈ defines := by
  obtain ⟨_, _, rfl⟩ := exists_arranged h
  exact Table.mem_overlay he

/-! ## Evaluating -/

/-- No text of a line that applies to a path has a reference that leads nowhere. -/
def Expands (rules : RuleSet) : Prop :=
  ∀ (kind : RuleKind) (path : Text), ∀ line ∈ rules.linesFor kind path, ∀ t ∈ line.texts, ∀ name,
    rules.definitions.expand t ≠ .error (.undefined name)

end RuleSet

/-- A predicate that has no value because of a text has it in an operand. -/
theorem Predicate.exists_operand_of_expand {p : Predicate} {f : Facts} {complete : Completion} {conjunctive : Bool}
    {fault : ExpandFault} (h : p.evaluate f complete conjunctive = .error (.expand fault)) :
    ∃ o ∈ p.operands, complete o.text = .error fault := by
  have hoperand : ∀ {kind : PredicateKind},
      (p.operands.mapM fun o => o.evaluate kind f complete) = .error (.expand fault) →
        ∃ o ∈ p.operands, complete o.text = .error fault := by
    intro kind h
    obtain ⟨o, ho, h⟩ := exists_of_mapM_eq_error h
    refine ⟨o, ho, ?_⟩
    unfold Operand.evaluate at h
    rcases bind_eq_error.mp h with h | ⟨text, -, h⟩
    · obtain ⟨_, hcomplete, heq⟩ := mapError_eq_error.mp h
      exact EvaluationFault.expand.inj heq ▸ hcomplete
    · rcases bind_eq_error.mp h with h | ⟨_, -, h⟩
      · obtain ⟨_, -, heq⟩ := mapError_eq_error.mp h
        cases heq
      · cases h
  unfold Predicate.evaluate at h
  split at h
  · cases h
  · cases h
  · rcases bind_eq_error.mp h with h | ⟨_, -, h⟩
    · exact hoperand h
    · cases h

/-- Predicates that have no value because of a text have it in an operand. -/
theorem exists_operand_of_expand {ps : List Predicate} {f : Facts} {complete : Completion} {fault : ExpandFault}
    (h : evaluatePredicates ps f complete = .error (.expand fault)) :
    ∃ p ∈ ps, ∃ o ∈ p.operands, complete o.text = .error fault := by
  unfold evaluatePredicates at h
  rcases bind_eq_error.mp h with h | ⟨targets, -, h⟩
  · obtain ⟨_, htargets, heq⟩ := mapError_eq_error.mp h
    obtain ⟨o, ho, hcomplete⟩ := exists_of_mapM_eq_error htargets
    obtain ⟨p, hp, ho⟩ := List.mem_flatMap.mp ho
    exact ⟨p, (List.mem_filter.mp hp).1, o, ho, EvaluationFault.expand.inj heq ▸ hcomplete⟩
  rcases bind_eq_error.mp h with h | ⟨values, -, h⟩
  · obtain ⟨p, hp, hvalue⟩ := exists_of_mapM_eq_error h
    exact ⟨p, (List.mem_filter.mp hp).1, Predicate.exists_operand_of_expand hvalue⟩
  · cases h

namespace RuleSet

variable {rules : RuleSet} {path name : Text} {facts : Facts} {fault : ConfigFault}

theorem cause_ne_of_expand (h : rules.Expands) {kind : RuleKind} {line : RuleLine}
    (hline : line ∈ rules.linesFor kind path) {t : Text} (ht : t ∈ line.texts) {e : ExpandFault}
    (hexpand : rules.definitions.expand t = .error e) : e.config.cause ≠ .undefinedVariable name := by
  cases e with
  | undefined other => exact absurd hexpand (h kind path line hline t ht other)
  | tooDeep whole => exact fun heq => by cases heq

theorem cause_ne_of_holds (h : rules.Expands) {kind : RuleKind}
    (hholds : rules.holds kind path facts = .error (.config fault)) : fault.cause ≠ .undefinedVariable name := by
  unfold holds at hholds
  split at hholds
  · cases hholds
  · rename_i rule hrule
    obtain ⟨e, heval, heq⟩ := mapError_eq_error.mp hholds
    cases e with
    | file e => cases heq
    | expand e =>
      obtain rfl := RuleFault.config.inj heq
      obtain ⟨p, hp, o, ho, hexpand⟩ := exists_operand_of_expand heval
      obtain ⟨line, hline, hp⟩ := (Rule.madeOf_ofLines hrule).predicates p hp
      have htext : o.text ∈ line.texts :=
        List.mem_cons_of_mem _ (List.mem_map_of_mem (List.mem_flatMap.mpr ⟨p, hp, ho⟩))
      exact cause_ne_of_expand h hline htext hexpand

theorem cause_ne_of_remapping (h : rules.Expands) (hremap : rules.remapping path = .error (.config fault)) :
    fault.cause ≠ .undefinedVariable name := by
  unfold remapping at hremap
  split at hremap
  · rw [← RuleFault.config.inj (Except.error.inj hremap)]
    exact fun heq => by cases heq
  · rename_i rule hrule
    split at hremap
    · rw [← RuleFault.config.inj (Except.error.inj hremap)]
      exact fun heq => by cases heq
    · split at hremap
      · rename_i e hexpand
        obtain ⟨line, hline, hvalue⟩ := (Rule.madeOf_ofLines hrule).value
        rw [← RuleFault.config.inj (Except.error.inj hremap)]
        exact cause_ne_of_expand h hline (hvalue ▸ List.mem_cons_self) hexpand
      · cases hremap

/-- A path that goes nowhere is one that cannot be remapped. -/
theorem remapping_of_destination {remap flatten : Bool} {e : RuleFault}
    (h : rules.destination path remap flatten = .error e) : rules.remapping path = .error e := by
  cases remap with
  | false => rw [destination_false] at h; cases h
  | true =>
    rw [destination_true] at h
    cases hremap : rules.remapping path with
    | error e' =>
      rw [hremap] at h
      obtain rfl := Except.error.inj h
      rfl
    | ok parts => rw [hremap] at h; cases h

theorem cause_ne_of_evaluate (h : rules.Expands) (heval : rules.evaluate path facts = .error (.config fault)) :
    fault.cause ≠ .undefinedVariable name := by
  unfold evaluate at heval
  rcases bind_eq_error.mp heval with hskip | ⟨skip, -, heval⟩
  · exact cause_ne_of_holds h hskip
  cases skip with
  | true => cases heval
  | false =>
    rcases bind_eq_error.mp heval with hremap | ⟨remap, -, heval⟩
    · exact cause_ne_of_holds h hremap
    rcases bind_eq_error.mp heval with hflatten | ⟨flatten, -, heval⟩
    · exact cause_ne_of_holds h hflatten
    rcases bind_eq_error.mp heval with hdestination | ⟨_, -, heval⟩
    · exact cause_ne_of_remapping h (remapping_of_destination hdestination)
    · cases heval

/-- Where rules could be made, what is said about a path is never that a variable is undefined, provided that the values
of the defines refer to variables, and that with each variable, an end that a separator cuts off its name is the name of a
variable too. -/
theorem evaluate_defined {text source : Text} {defines : Table Text} (h : ofText text source defines = .ok rules)
    (hdefines : ∀ e ∈ defines, ∀ name ∈ referencesIn e.2, Table.has name rules.definitions = true)
    (hends : ∀ whole name, Table.has whole rules.definitions = true → CutsOff whole name →
      Table.has name rules.definitions = true) (path : Text) (facts : Facts) (fault : ConfigFault) (name : Text) :
    rules.evaluate path facts = .error (.config fault) → fault.cause ≠ .undefinedVariable name := by
  obtain ⟨d, hread, hbuilt⟩ := bind_eq_ok.mp h
  have hlists : d.Lists := Draft.lists_nothing.readText hread
  refine cause_ne_of_evaluate fun kind path line hline t ht name => Variables.expand_ne_undefined ?_ ?_
  · intro e he name hname
    rcases mem_definitions hbuilt he with he | he
    · exact has_of_mem_listed hbuilt (hlists.values e he hname)
    · exact hdefines e he name hname
  · intro name hname
    obtain ⟨-, entry, hentry, original, horiginal, heq⟩ := exists_written hbuilt hline
    rw [heq] at ht
    rcases hlists.lines entry hentry original horiginal t ht name hname with hlisted | ⟨whole, hwhole, hcuts⟩
    · exact has_of_mem_listed hbuilt hlisted
    · exact hends whole name (has_of_mem_listed hbuilt hwhole) hcuts

/-- A line of the section for every path, with one operand. -/
def truthyLine (operand : Text) (line : Nat) : RuleLine where
  kind := .skipIf
  scope := []
  predicates := [⟨.isTruthy, [⟨operand, false⟩], false⟩]
  value := []
  append := false
  baseDomain := false
  source := unnamedSource
  line := line

/-- The rule set of a draft without other sections than the one for every path. -/
def globalOnly (d : Draft) (defines : Table Text) : RuleSet :=
  ⟨Table.overlay d.definitions defines, [⟨[], none, d.scopes.flatMap Prod.snd⟩]⟩

theorem ofText_eq_globalOnly {text : Text} {defines : Table Text} {d : Draft} {lines : List RuleLine}
    (hscopes : d.scopes = [([], lines)]) (hread : Draft.readText {} text unnamedSource = .ok d)
    (hdeclared : undeclared? d defines = none)
    (hresolve : resolveScopes (globalOnly d defines).definitions d.scopes = .ok d.scopes) :
    ofText text unnamedSource defines = .ok (globalOnly d defines) := by
  have hentries : (globalOnly d defines).scopes.map (fun s => (s.path, s.lines)) = d.scopes := by
    simp [globalOnly, hscopes]
  have hroot : withRoot d.scopes = d.scopes := by simp [withRoot, hscopes, Table.has, Table.get?]
  refine bind_eq_ok.mpr ⟨d, hread, ofDraft_eq_ok rfl hdeclared hresolve ?_ ?_ ?_⟩
  · rw [hentries, hroot]
  · rw [hentries, hscopes]
    exact List.pairwise_singleton _ _
  · rw [hentries, hscopes]
    simp [globalOnly, hscopes, addScope]

/-- A variable of the text and one of the defines, which refers to the other one. -/
def debugText : Text := "[Variables]\nOn=yes\n[Global]\nSkipIf=IsTruthy:${Debug}\n"

def debugDraft : Draft where
  definitions := [("On", "yes")]
  scopes := [([], [truthyLine "${Debug}" 4])]
  references := [⟨"Debug", unnamedSource, 4⟩]

def debugDefines : Table Text := [("Debug", "${On}")]

theorem evaluate_defined_debug : ofText debugText unnamedSource debugDefines = .ok (globalOnly debugDraft debugDefines) ∧
    ∀ path facts fault name, (globalOnly debugDraft debugDefines).evaluate path facts = .error (.config fault) →
      fault.cause ≠ .undefinedVariable name := by
  have hmade : ofText debugText unnamedSource debugDefines = .ok (globalOnly debugDraft debugDefines) :=
    ofText_eq_globalOnly rfl (by with_unfolding_all rfl) (by decide) (by decide)
  refine ⟨hmade, evaluate_defined hmade (by decide) fun whole name hwhole hcuts => ?_⟩
  have hplain : ∀ whole ∈ (globalOnly debugDraft debugDefines).definitions.map Prod.fst, char '$' ∉ whole := by
    decide
  obtain ⟨sep, -, a, b, rfl⟩ := hcuts
  exact absurd (by simp) (hplain _ (Table.has_iff.mp hwhole))

/-- The value of a define refers to nothing. -/
def danglingText : Text := "[Global]\nSkipIf=IsTruthy:${A}\n"

/-- A comma cuts the end off the name of a variable. -/
def severedText : Text := "[Variables]\nA,$\x7bB=1\n[Global]\nSkipIf=IsTruthy:$\x7bA,$\x7bB\x7d\n"

def danglingDraft : Draft where
  scopes := [([], [truthyLine "${A}" 2])]
  references := [⟨"A", unnamedSource, 2⟩]

def severedDraft : Draft where
  definitions := [("A,$\x7bB", "1")]
  scopes := [([], [{ truthyLine [] 4 with predicates := [⟨.isTruthy, [⟨"$\x7bA", false⟩, ⟨"${B}", false⟩], false⟩] }])]
  references := [⟨"A,$\x7bB", unnamedSource, 4⟩]

/-- Rules can be made, and still an undefined variable is found when a path is looked up. -/
theorem evaluate_undefined :
    (ofText danglingText unnamedSource [("A", "${B}")] = .ok (globalOnly danglingDraft [("A", "${B}")]) ∧
      (globalOnly danglingDraft [("A", "${B}")]).evaluate "x.cpp" {} =
        .error (.config { cause := .undefinedVariable "B" })) ∧
    ofText severedText unnamedSource [] = .ok (globalOnly severedDraft []) ∧
      (globalOnly severedDraft []).evaluate "x.cpp" {} = .error (.config { cause := .undefinedVariable "B" }) := by
  refine ⟨⟨?_, by with_unfolding_all decide⟩, ?_, by with_unfolding_all decide⟩
  · exact ofText_eq_globalOnly rfl (by with_unfolding_all rfl) (by decide) (by decide)
  · exact ofText_eq_globalOnly rfl (by with_unfolding_all rfl) (by decide) (by decide)

end RuleSet

end Regraft

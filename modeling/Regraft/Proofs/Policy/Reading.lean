import Regraft.Run.Session
import Regraft.Proofs.Fallible
import Regraft.Proofs.Files.Looking
import Regraft.Proofs.Table
import Mathlib.Data.List.Induction
/-!
# What a draft keeps of rule files

The rule lines of files, in the order in which they are read (`Draft.linesIn`), are kept by a draft in groups, each under
a path as it is written (`Draft.Keeps`): a group holds the lines for its path in the order in which they were read, and
nothing tells any more how lines of different groups follow each other.

* `Draft.pairwise_linesIn`: the lines of a file, as they are read, go down the file;
* `Draft.keeps_readTexts`: what a draft of several files keeps;
* `exists_readTexts_of_loadRules`: rules that are loaded come from such a draft.
-/
namespace Regraft

/-! ## The lines of a file -/

/-- The section behind a line, which may be a header. -/
def Section.behind (here : Section) (t : Text) : Section :=
  if t.head? = some (char '[') then (Draft.readHeader t).toOption.getD here else here

namespace Draft

/-- The rule lines that a directive stands for, one for each path of its section. -/
def directiveLines (source : Text) (here : Section) (number : Nat) (t : Text) : List RuleLine :=
  match cut? (· == '=') t, here with
  | some (key, value), .scopes paths =>
    match readRule key (strip value) source number with
    | .ok rule => paths.map fun path => { rule with scope := path }
    | .error _ => []
  | _, _ => []

/-- The rule lines that a line of a file stands for; none, if it is empty, a comment or a header. -/
def linesOf (source : Text) (here : Section) (number : Nat) : Text → List RuleLine
  | [] => []
  | c :: rest => if c = ';' ∨ c = '#' ∨ c = '[' then [] else directiveLines source here number (c :: rest)

/-- The rule lines of numbered lines, in the order in which they are read. -/
def linesFrom (source : Text) : Section → List (Text × Nat) → List RuleLine
  | _, [] => []
  | here, (raw, number) :: rest =>
    linesOf source here number (strip raw) ++ linesFrom source (here.behind (strip raw)) rest

/-- The rule lines of a text from a source, in the order in which they are read. -/
def linesIn (file : Text × Text) : List RuleLine := linesFrom file.2 .outside ((splitLines file.1).zipIdx 1)

variable {source : Text} {number : Nat} {line : RuleLine}

theorem line_of_readRule {key value : Text} (h : readRule key value source number = .ok line) : line.line = number := by
  unfold readRule at h
  simp only [throw, throwThe, MonadExceptOf.throw, bind, Except.bind, pure, Except.pure] at h
  split at h
  · cases h
  · split at h
    · cases h
    · exact Except.ok.inj h ▸ rfl
  · split at h
    · cases h
    · exact Except.ok.inj h ▸ rfl

theorem line_of_mem_linesOf {here : Section} {t : Text} (h : line ∈ linesOf source here number t) :
    line.line = number := by
  have hdirective : line ∈ directiveLines source here number t → line.line = number := by
    intro h
    unfold directiveLines at h
    split at h
    · split at h
      · rename_i hrule
        obtain ⟨path, -, rfl⟩ := List.mem_map.mp h
        have hline := line_of_readRule hrule
        exact hline
      · cases h
    · cases h
  cases t with
  | nil => cases h
  | cons c rest =>
    rw [linesOf] at h
    split at h
    · cases h
    · exact hdirective h

/-- The rule lines of numbered lines go down by number. -/
theorem pairwise_linesFrom (texts : List Text) (here : Section) (first : Nat) :
    (∀ line ∈ linesFrom source here (texts.zipIdx first), first ≤ line.line) ∧
      (linesFrom source here (texts.zipIdx first)).Pairwise fun a b => a.line ≤ b.line := by
  induction texts generalizing here first with
  | nil => exact ⟨fun line h => absurd h List.not_mem_nil, .nil⟩
  | cons raw texts ih =>
    rw [List.zipIdx_cons, linesFrom]
    obtain ⟨hlater, hpairs⟩ := ih (here.behind (strip raw)) (first + 1)
    refine ⟨fun line hline => ?_, List.pairwise_append.mpr ⟨?_, hpairs, fun a ha b hb => ?_⟩⟩
    · rcases List.mem_append.mp hline with hline | hline
      · exact Nat.le_of_eq (line_of_mem_linesOf hline).symm
      · exact Nat.le_of_succ_le (hlater line hline)
    · exact List.pairwise_of_forall_mem_list fun a ha b hb =>
        Nat.le_of_eq ((line_of_mem_linesOf ha).trans (line_of_mem_linesOf hb).symm)
    · rw [line_of_mem_linesOf ha]
      exact Nat.le_of_succ_le (hlater b hb)

theorem pairwise_linesIn (file : Text × Text) : (linesIn file).Pairwise fun a b => a.line ≤ b.line :=
  (pairwise_linesFrom _ _ _).2

/-- Reads texts, each with its source, into one draft. -/
def readTexts (files : List (Text × Text)) : Except ConfigFault Draft :=
  files.foldlM (fun d file => d.readText file.1 file.2) {}

/-! ## What a draft keeps -/

/-- A draft keeps the lines that were read, each under its path as it is written. -/
structure Keeps (d : Draft) (read : List RuleLine) : Prop where
  distinct : (d.scopes.map Prod.fst).Nodup
  lines : ∀ path, (Table.get? path d.scopes).getD [] = read.filter fun line => line.scope = path
  opened : ∀ line ∈ read, line.scope ∈ d.scopes.map Prod.fst

variable {d d' : Draft} {read : List RuleLine}

theorem keeps_nothing : Keeps {} [] := ⟨List.nodup_nil, fun _ => rfl, fun _ h => absurd h List.not_mem_nil⟩

theorem Keeps.refer (h : Keeps d read) (t source : Text) (number : Nat) : Keeps (d.refer t source number) read :=
  ⟨h.distinct, h.lines, h.opened⟩

theorem Keeps.openScope (h : Keeps d read) (path : Text) : Keeps (d.openScope path) read := by
  unfold Draft.openScope
  split
  · exact h
  · rename_i hnew
    have hnone : Table.get? path d.scopes = none := by simpa [Table.has] using hnew
    refine ⟨Table.nodup_put h.distinct _ _, fun other => ?_, fun line hline =>
      Table.mem_map_fst_put.mpr (.inr (h.opened line hline))⟩
    by_cases hother : other = path
    · rw [hother, Table.get?_put_self, ← h.lines, hnone]
      rfl
    · rw [Table.get?_put_of_ne hother, h.lines]

theorem Keeps.addLine (h : Keeps d read) (line : RuleLine) : Keeps (d.addLine line) (read ++ [line]) := by
  refine ⟨Table.nodup_put h.distinct _ _, fun path => ?_, fun other hother => ?_⟩
  · by_cases hpath : path = line.scope
    · rw [hpath, Draft.addLine, Table.get?_put_self, h.lines]
      simp
    · rw [Draft.addLine, Table.get?_put_of_ne hpath, h.lines]
      simp [Ne.symm hpath]
  · refine Table.mem_map_fst_put.mpr ?_
    rcases List.mem_append.mp hother with hother | hother
    · exact .inr (h.opened other hother)
    · exact .inl (congrArg RuleLine.scope (List.mem_singleton.mp hother))

theorem Keeps.openAll (h : Keeps d read) (paths : List Text) (source : Text) (number : Nat) :
    Keeps (paths.foldl (fun d path => (d.refer path source number).openScope path) d) read := by
  induction paths generalizing d with
  | nil => exact h
  | cons path paths ih => exact ih ((h.refer path source number).openScope path)

theorem Keeps.addAll (h : Keeps d read) (rule : RuleLine) (paths : List Text) :
    Keeps (paths.foldl (fun d path => d.addLine { rule with scope := path }) d)
      (read ++ paths.map fun path => { rule with scope := path }) := by
  induction paths generalizing d read with
  | nil => simpa using h
  | cons path paths ih => simpa using ih (h.addLine { rule with scope := path })

/-! ## Reading on -/

theorem directiveLines_definitions (source : Text) (number : Nat) (t : Text) :
    directiveLines source .definitions number t = [] := by
  unfold directiveLines
  split
  · cases ‹Section.definitions = _›
  · rfl

theorem directiveLines_scopes {t key value : Text} {paths : List Text} {rule : RuleLine}
    (hcut : cut? (· == '=') t = some (key, value)) (hrule : readRule key (strip value) source number = .ok rule) :
    directiveLines source (.scopes paths) number t = paths.map fun path => { rule with scope := path } := by
  simp only [directiveLines, hcut, hrule]

/-- A directive defines a variable, or adds a rule to every scope of its section. -/
theorem readDirective_cases {here : Section} {t : Text} (h : d.readDirective here t source number = .ok d') :
    ∃ key value, cut? (· == '=') t = some (key, value) ∧
      ((here = .definitions ∧ ∃ name, d' = { d.refer (strip value) source number with
          definitions := Table.put name (strip value) d.definitions }) ∨
        ∃ paths rule, here = .scopes paths ∧ readRule key (strip value) source number = .ok rule ∧
          d' = paths.foldl (fun d path => d.addLine { rule with scope := path }) (d.refer (strip value) source number)) := by
  unfold Draft.readDirective at h
  cases hcut : cut? (· == '=') t with
  | none => simp [hcut] at h
  | some parts =>
    obtain ⟨key, value⟩ := parts
    refine ⟨key, value, rfl, ?_⟩
    cases here with
    | outside => simp [hcut] at h
    | definitions =>
      simp only [hcut, throw, throwThe, MonadExceptOf.throw, bind, Except.bind, pure, Except.pure] at h
      split at h
      · cases h
      · exact .inl ⟨rfl, _, (Except.ok.inj h).symm⟩
    | scopes paths =>
      simp only [hcut] at h
      obtain ⟨rule, hrule, h⟩ := bind_eq_ok.mp h
      exact .inr ⟨paths, rule, rfl, hrule, (Except.ok.inj h).symm⟩

/-- A line leads to the section behind it. It adds nothing, opens the scopes of that section, or is a directive. -/
theorem readLine_cases {here there : Section} {raw : Text}
    (h : Draft.readLine source (here, d) number raw = .ok (there, d')) :
    there = here.behind (strip raw) ∧
      ((linesOf source here number (strip raw) = [] ∧ (d' = d ∨ ∃ paths : List Text,
          d' = paths.foldl (fun d path => (d.refer path source number).openScope path) d)) ∨
        (linesOf source here number (strip raw) = directiveLines source here number (strip raw) ∧
          d.readDirective here (strip raw) source number = .ok d')) := by
  unfold Draft.readLine at h
  cases hline : strip raw with
  | nil =>
    simp only [hline] at h
    obtain ⟨rfl, rfl⟩ := Prod.mk.inj (Except.ok.inj h)
    exact ⟨rfl, .inl ⟨rfl, .inl rfl⟩⟩
  | cons c rest =>
    simp only [hline] at h
    by_cases hheader : c = '['
    · subst hheader
      rw [if_neg (by decide), if_pos rfl] at h
      obtain ⟨opened, hopen, h⟩ := bind_eq_ok.mp h
      have hthere : here.behind (char '[' :: rest) = opened := by simp [Section.behind, hopen, Except.toOption]
      have hnone : linesOf source here number (char '[' :: rest) = [] := by simp [linesOf]
      rw [hthere, hnone]
      cases opened with
      | scopes paths =>
        obtain ⟨rfl, rfl⟩ := Prod.mk.inj (Except.ok.inj h)
        exact ⟨rfl, .inl ⟨rfl, .inr ⟨paths, rfl⟩⟩⟩
      | outside | definitions =>
        obtain ⟨rfl, rfl⟩ := Prod.mk.inj (Except.ok.inj h)
        exact ⟨rfl, .inl ⟨rfl, .inl rfl⟩⟩
    · have hhere : here.behind (c :: rest) = here := if_neg (by simpa using hheader)
      by_cases hcomment : c = ';' ∨ c = '#'
      · rw [if_pos hcomment] at h
        obtain ⟨rfl, rfl⟩ := Prod.mk.inj (Except.ok.inj h)
        exact ⟨hhere.symm, .inl ⟨if_pos (hcomment.imp_right .inl), .inl rfl⟩⟩
      · rw [if_neg hcomment, if_neg hheader] at h
        obtain ⟨added, hadded, h⟩ := bind_eq_ok.mp h
        obtain ⟨rfl, rfl⟩ := Prod.mk.inj (Except.ok.inj h)
        exact ⟨hhere.symm, .inr ⟨if_neg (by simpa [or_assoc, hheader] using hcomment), hadded⟩⟩

theorem Keeps.readDirective (h : Keeps d read) {here : Section} {t : Text}
    (hread : d.readDirective here t source number = .ok d') :
    Keeps d' (read ++ directiveLines source here number t) := by
  obtain ⟨key, value, hcut, ⟨rfl, name, rfl⟩ | ⟨paths, rule, rfl, hrule, rfl⟩⟩ := readDirective_cases hread
  · rw [directiveLines_definitions, List.append_nil]
    exact ⟨h.distinct, h.lines, h.opened⟩
  · rw [directiveLines_scopes hcut hrule]
    exact (h.refer _ _ _).addAll rule paths

/-- A line leads to the section behind it and adds the rule lines that it stands for. -/
theorem Keeps.readLine (h : Keeps d read) {here there : Section} {raw : Text}
    (hread : Draft.readLine source (here, d) number raw = .ok (there, d')) :
    there = here.behind (strip raw) ∧ Keeps d' (read ++ linesOf source here number (strip raw)) := by
  obtain ⟨hthere, ⟨hnone, rfl | ⟨paths, rfl⟩⟩ | ⟨hlines, hdirective⟩⟩ := readLine_cases hread
  · exact ⟨hthere, by rwa [hnone, List.append_nil]⟩
  · exact ⟨hthere, by simpa [hnone] using h.openAll paths source number⟩
  · exact ⟨hthere, hlines ▸ h.readDirective hdirective⟩

theorem Keeps.readLines {numbered : List (Text × Nat)} : ∀ {here : Section} {d : Draft} {read : List RuleLine},
    Keeps d read → Draft.readLines source (here, d) numbered = .ok d' →
      Keeps d' (read ++ linesFrom source here numbered) := by
  induction numbered with
  | nil =>
    intro here d read h hread
    obtain rfl := Except.ok.inj hread
    simpa [linesFrom] using h
  | cons line rest ih =>
    intro here d read h hread
    obtain ⟨raw, number⟩ := line
    rw [Draft.readLines] at hread
    cases hline : Draft.readLine source (here, d) number raw with
    | error cause => simp [hline] at hread
    | ok state =>
      obtain ⟨there, d₁⟩ := state
      simp only [hline] at hread
      obtain ⟨rfl, hkeeps⟩ := h.readLine hline
      rw [linesFrom, ← List.append_assoc]
      exact ih hkeeps hread

theorem keeps_readTexts {files : List (Text × Text)} (h : readTexts files = .ok d) :
    Keeps d (files.flatMap linesIn) := by
  induction files using List.reverseRecOn generalizing d with
  | nil =>
    obtain rfl := Except.ok.inj h
    exact keeps_nothing
  | append_singleton files file ih =>
    obtain ⟨before, hbefore, hlast⟩ := foldlM_concat_eq_ok h
    rw [List.flatMap_append, List.flatMap_singleton]
    exact (ih hbefore).readLines hlast

end Draft

/-! ## Rules that are loaded -/

/-- The text that a rule file is read as, with its source; none if there is no such file. -/
def configText? (w : World) (p : Path) : Option (Text × Text) :=
  match w.tree.probe w.cwd p, w.tree.read w.cwd p with
  | .ok (some .file), .ok (.text chars) => some (universalNewlines (Text.ofChars chars), p.toText)
  | _, _ => none

theorem looks_readConfig (d : Draft) (p : Path) : (readConfig d p).Looks := by
  refine (Attempt.looks_isFile p).bind fun there => ?_
  cases there with
  | false => exact Attempt.looks_pure d
  | true =>
    refine (Attempt.looks_read p).bind fun answer => ?_
    cases answer with
    | error fault => exact Attempt.looks_throw _
    | ok content =>
      cases content with
      | text chars => exact Attempt.looks_ofExcept _ _
      | bytes b => exact Attempt.looks_throw _

/-- A rule file is read as its text, and one that is not there adds nothing. -/
theorem readText_of_readConfig {d d' : Draft} {p : Path} {w : World} (h : (readConfig d p).value w = .ok d') :
    (configText? w p).toList.foldlM (fun d file => d.readText file.1 file.2) d = .ok d' := by
  obtain ⟨there, hthere, h⟩ := (Attempt.looks_isFile p).bind_eq_ok h
  rw [Attempt.value_isFile] at hthere
  unfold configText?
  cases hprobe : w.tree.probe w.cwd p with
  | error fault => rw [hprobe] at hthere; cases hthere
  | ok kind =>
    rw [hprobe] at hthere
    obtain rfl := Except.ok.inj hthere
    match kind with
    | none | some .directory =>
      obtain rfl := Except.ok.inj h
      rfl
    | some .file =>
      obtain ⟨answer, hanswer, h⟩ := (Attempt.looks_read p).bind_eq_ok h
      obtain rfl : w.tree.read w.cwd p = answer := Except.ok.inj hanswer
      cases hread : w.tree.read w.cwd p with
      | error fault => rw [hread] at h; cases h
      | ok content =>
        rw [hread] at h
        cases content with
        | bytes b => cases h
        | text chars => simpa using Attempt.value_ofExcept_eq_ok h

theorem readTexts_of_readConfigs {paths : List Path} {d : Draft} {w : World}
    (h : (paths.foldlM readConfig {}).value w = .ok d) :
    Draft.readTexts (paths.filterMap (configText? w)) = .ok d := by
  induction paths using List.reverseRecOn generalizing d with
  | nil => exact congrArg Except.ok (Except.ok.inj h)
  | append_singleton paths p ih =>
    rw [List.foldlM_append] at h
    obtain ⟨before, hbefore, h⟩ := (Attempt.Looks.foldlM looks_readConfig paths {}).bind_eq_ok h
    rw [List.foldlM_cons] at h
    obtain ⟨d', hlast, h⟩ := (looks_readConfig before p).bind_eq_ok h
    obtain rfl := Except.ok.inj h
    have hone : [p].filterMap (configText? w) = (configText? w p).toList := by
      cases hp : configText? w p <;> simp [hp]
    rw [List.filterMap_append, Draft.readTexts, List.foldlM_append, ← Draft.readTexts, ih hbefore, hone]
    exact readText_of_readConfig hlast

/-- Rule files that are loaded are those that are there, read one after the other. -/
theorem exists_readTexts_of_loadRules {paths : List Path} {defines : Table Text} {w : World} {rules : RuleSet}
    (h : (loadRules paths defines).value w = .ok rules) :
    ∃ d, Draft.readTexts (paths.filterMap (configText? w)) = .ok d ∧ RuleSet.ofDraft d defines = .ok rules := by
  obtain ⟨d, hd, h⟩ := (Attempt.Looks.foldlM looks_readConfig paths {}).bind_eq_ok h
  exact ⟨d, readTexts_of_readConfigs hd, Attempt.value_ofExcept_eq_ok h⟩

end Regraft

import Regraft.Proofs.Files.Mirror
import Regraft.Proofs.Files.Standing
import Regraft.Proofs.Run.Isolation
import Regraft.Proofs.Store.Key
import Regraft.Proofs.Text.Slug
/-!
# The files of reports

The report of a conflict is written to a file that is named after the target. The name is a slug, so two targets can have the
same one, and then the report that is written later takes the place of the other one.

* `Session.shows_writeReport`: what one report leaves in the files of reports;
* `Session.shows_writeReports`: and what one after the other leaves;
* `Session.reports_kept`: which reports go to the same file, and which of them is there in the end;
* `Session.reports_lost`: two targets with one file.
-/
namespace Regraft

/-! ## Where paths lead -/

/-- The location that a path leads to, if there are directories on the way. -/
def Path.leadsTo (p : Path) (cwd : Location) : Location :=
  p.names.foldl (fun here name => if name = parentName then here.dropLast else here ++ [name])
    (if p.isAbsolute then [] else cwd)

theorem Path.leadsTo_child {p : Path} {name : Text} (h : name ≠ parentName) (cwd : Location) :
    (p.child name).leadsTo cwd = p.leadsTo cwd ++ [name] := by
  rw [leadsTo, leadsTo, child, List.foldl_append]
  exact if_neg h

theorem Path.child_inj {p : Path} {name other : Text} : p.child name = p.child other ↔ name = other := by
  simp [child]

theorem Tree.eq_leadsTo_of_locate {t : Tree} {cwd here : Location} {p : Path} (h : t.locate cwd p = .ok here) :
    here = p.leadsTo cwd :=
  eq_foldl_of_follow (locate_eq_ok.mp h).2.2

/-- A text stands in the file that a path leads to. -/
def World.Shows (w : World) (p : Path) (text : Text) : Prop :=
  ∃ chars, text = Text.ofChars chars ∧ w.tree.entry? (p.leadsTo w.cwd) = some (.file (.text chars))

/-! ## Names of reports -/

/-- A key that is told by the name of its report: of characters that a slug keeps, without points at its ends, and short. -/
structure IsPlainTarget (target : Text) : Prop where
  key : keyOf target = .ok target
  chars : ∀ c ∈ target, isGap (isSlugChar false) c = false ∨ c = char '/'
  ends : ∀ c, c ∈ target.head? ∨ c ∈ target.getLast? → c ≠ char '/' ∧ c ≠ char '.'
  short : target.length ≤ 120

namespace Conflict

theorem fallsBack_slugStyle : slugStyle.FallsBack := ⟨by decide, by decide⟩

theorem fileName_eq_iff {target other : Text} : fileName target = fileName other ↔
    slugStyle.words target = slugStyle.words other ∨ slugStyle.Clash target other := by
  rw [← SlugStyle.slug_eq_iff fallsBack_slugStyle]
  exact List.append_left_inj _

theorem length_joinWith_eq {a b : CodePoint} (ws : List Text) : (joinWith [a] ws).length = (joinWith [b] ws).length := by
  induction ws with
  | nil => rfl
  | cons w ws ih =>
    cases ws with
    | nil => rfl
    | cons v ws => simpa [joinWith_cons_cons] using ih

/-- The words of a plain target are its names, and its slug is not cut. -/
theorem words_of_isPlainTarget {target : Text} (h : IsPlainTarget target) :
    KeyNames target (slugStyle.words target) ∧ ¬ slugStyle.IsLong target := by
  obtain ⟨names, hnames⟩ := exists_keyNames h.key
  have hwords : slugStyle.words target = names := by
    have hends := h.ends
    have hchars := h.chars
    rw [hnames.written] at hends hchars ⊢
    refine SlugStyle.words_joinWith rfl (by decide) hnames.ne_nil (fun w hw => ?_) fun c hc => ?_
    · have hname := hnames.isName w hw
      refine ⟨hname.ne_nil, fun c hc => (hchars c (mem_joinWith hc hw)).resolve_right ?_⟩
      rintro rfl
      exact hname.noSlash hc
    · obtain ⟨hslash, hpoint⟩ := hends c hc
      have hmem : c ∈ joinWith [char '/'] names := hc.elim List.mem_of_mem_head? List.mem_of_getLast?
      exact ⟨(hchars c hmem).resolve_right hslash, hpoint⟩
  refine ⟨hwords ▸ hnames, ?_⟩
  rw [SlugStyle.IsLong, SlugStyle.wholeSlug_eq fallsBack_slugStyle, hwords, length_joinWith_eq (b := char '/')]
  have hshort := h.short
  rw [hnames.written] at hshort
  exact Int.not_lt.mpr (Int.ofNat_le.mpr hshort)

/-- Plain targets have files of their own. -/
theorem eq_of_fileName_eq {target other : Text} (h : IsPlainTarget target) (h' : IsPlainTarget other)
    (heq : fileName target = fileName other) : target = other := by
  obtain ⟨hnames, hshort⟩ := words_of_isPlainTarget h
  obtain ⟨hnames', hshort'⟩ := words_of_isPlainTarget h'
  rcases fileName_eq_iff.mp heq with hwords | hclash
  · exact hnames.key_eq (hwords ▸ hnames')
  · cases hclash with
    | cut hlong => exact absurd hlong hshort
    | cutLeft hlong => exact absurd hlong hshort
    | cutRight _ hlong => exact absurd hlong hshort'

end Conflict

/-! ## Reports one after the other -/

namespace Session

variable {s : Session} {directory : Path} {w w' : World}

/-- A report goes to its file in the directory for reports, if it goes anywhere, and its text is there. The other files of
reports are left as they are. -/
theorem shows_writeReport {report : Conflict Float} {place : Option Path}
    (hdirectory : ∀ d, s.settings.conflictDir = some d → d = directory)
    (h : (s.writeReport report).outcome w = (.ok place, w')) :
    (∀ p, place = some p → p = (s.sandbox.mirror directory).child (Conflict.fileName report.targetPath) ∧
        w'.Shows p report.fileText) ∧
      ∀ name text, name ≠ parentName → place ≠ some ((s.sandbox.mirror directory).child name) →
        w.Shows ((s.sandbox.mirror directory).child name) text → w'.Shows ((s.sandbox.mirror directory).child name) text := by
  have hends := (s.ends_writeReport w report).of_ok h
  have hkeeps : ∀ p text, w'.cwd = w.cwd → w.tree.SameAt w'.tree (p.leadsTo w.cwd) → w.Shows p text → w'.Shows p text := by
    rintro p text hcwd hsame ⟨chars, htext, hentry⟩
    refine ⟨chars, htext, ?_⟩
    rcases hsame with hsame | ⟨hnone, -⟩
    · rw [hcwd, hsame, hentry]
    · rw [hnone] at hentry
      cases hentry
  cases place with
  | none => exact ⟨fun p hp => (by cases hp), fun name text _ _ => hkeeps _ _ hends.cwd (hends.files _)⟩
  | some p =>
    obtain ⟨d, hd, hresolved, here, chars, hlocate, htext, hputs⟩ := hends
    obtain rfl := hdirectory d hd
    have hp := Sandbox.resolve_child (Conflict.fileName_ne_parentName report.targetPath) hresolved
    obtain rfl := Tree.eq_leadsTo_of_locate hlocate
    refine ⟨fun q hq => ?_, fun name text hname hother => hkeeps _ _ hputs.cwd (hputs.others _ fun heq => hother ?_)⟩
    · obtain rfl := Option.some.inj hq
      exact ⟨hp, chars, htext, hputs.file⟩
    · rw [hp, hputs.cwd, Path.leadsTo_child hname, Path.leadsTo_child (Conflict.fileName_ne_parentName _)] at heq
      rw [hp, List.singleton_inj.mp (List.append_cancel_left heq)]

/-- The last of some reports that went to a file. -/
def lastAt (p : Path) : List (Conflict Float × Option Path) → Option (Conflict Float)
  | [] => none
  | (report, place) :: later => (lastAt p later).or (if place = some p then some report else none)

theorem exists_lastAt {p : Path} {report : Conflict Float} {written : List (Conflict Float × Option Path)}
    (h : (report, some p) ∈ written) : ∃ last, lastAt p written = some last := by
  induction written with
  | nil => cases h
  | cons first written ih =>
    obtain ⟨other, place⟩ := first
    rw [lastAt]
    cases hlater : lastAt p written with
    | some last => exact ⟨last, rfl⟩
    | none =>
      have hfirst : (report, some p) = (other, place) := (List.mem_cons.mp h).resolve_right fun hmem => by
        obtain ⟨last, hlast⟩ := ih hmem
        rw [hlast] at hlater
        cases hlater
      obtain ⟨rfl, rfl⟩ := Prod.mk.inj hfirst
      exact ⟨report, if_pos rfl⟩

/-- Of the reports that went to one file, the last one is there in the end. -/
theorem shows_writeReports {reports : List (Conflict Float)} {places : List (Option Path)}
    (hdirectory : ∀ d, s.settings.conflictDir = some d → d = directory)
    (h : (reports.mapM s.writeReport).outcome w = (.ok places, w')) :
    (∀ report p, (report, some p) ∈ reports.zip places →
        p = (s.sandbox.mirror directory).child (Conflict.fileName report.targetPath)) ∧
      ∀ name text, name ≠ parentName →
        (lastAt ((s.sandbox.mirror directory).child name) (reports.zip places)).map Conflict.fileText = some text ∨
          lastAt ((s.sandbox.mirror directory).child name) (reports.zip places) = none ∧
            w.Shows ((s.sandbox.mirror directory).child name) text →
        w'.Shows ((s.sandbox.mirror directory).child name) text := by
  induction reports generalizing w places with
  | nil =>
    obtain ⟨rfl, rfl⟩ : places = [] ∧ w' = w := by
      obtain ⟨hplaces, hworld⟩ := Prod.mk.inj h
      exact ⟨(Except.ok.inj hplaces).symm, hworld.symm⟩
    exact ⟨fun _ _ hmem => (by cases hmem), fun _ _ _ hlast => hlast.elim (fun hnone => by cases hnone) And.right⟩
  | cons report reports ih =>
    rw [List.mapM_cons] at h
    obtain ⟨_, _, hfault⟩ | ⟨place, w₁, hfirst, h⟩ := Attempt.bind_cases h
    · cases hfault
    obtain ⟨_, _, hfault⟩ | ⟨others, w₂, hrest, h⟩ := Attempt.bind_cases h
    · cases hfault
    obtain ⟨hplaces, rfl⟩ := Prod.mk.inj h
    obtain rfl := Except.ok.inj hplaces
    obtain ⟨hwritten, hkept⟩ := shows_writeReport hdirectory hfirst
    obtain ⟨hplaced, hshown⟩ := ih hrest
    refine ⟨fun r p hmem => ?_, fun name text hname hlast => hshown name text hname ?_⟩
    · rcases List.mem_cons.mp hmem with heq | hmem
      · obtain ⟨rfl, hplace⟩ := Prod.mk.inj heq
        exact (hwritten p hplace.symm).1
      · exact hplaced r p hmem
    · -- a later report stays what it is, and without one the first report counts
      rw [List.zip_cons_cons, lastAt] at hlast
      cases hlater : lastAt ((s.sandbox.mirror directory).child name) (reports.zip others) with
      | some last =>
        rw [hlater] at hlast
        exact .inl (hlast.resolve_right fun hnone => by cases hnone.1)
      | none =>
        rw [hlater, Option.none_or] at hlast
        refine .inr ⟨rfl, ?_⟩
        split at hlast
        · rename_i hplace
          obtain rfl := Option.some.inj (hlast.resolve_right fun hnone => by cases hnone.1)
          exact (hwritten _ hplace).2
        · rename_i hplace
          exact hkept name text hname hplace (hlast.resolve_left fun hsome => by cases hsome).2

/-- Beside a file that was written, a tree takes what it took before. -/
theorem takes_of_wrote {t t' : Tree} {p q : Path} {text : Text} {chars : List Char} (h : t.Wrote t' p chars)
    (hne : p.names ≠ []) (htakes : t.Takes q text) (hbeside : q.names.dropLast = p.names.dropLast) :
    t'.Takes q text := by
  have hshorter : ∀ {names : List Text}, names ≠ [] → names.dropLast = p.names.dropLast → ¬ names <+: p.names.dropLast := by
    intro names hne heq hpre
    have hlength := hpre.length_le
    have hpos := List.length_pos_iff.mpr hne
    rw [← heq, List.length_dropLast] at hlength
    omega
  refine { htakes with way := fun front hfront => ?_, free := ?_ }
  · rw [hbeside] at hfront
    rw [h, if_neg, if_pos hfront]
    · exact .inr rfl
    · rintro rfl
      exact hshorter hne rfl hfront
  · rw [h, if_neg (hshorter htakes.named hbeside)]
    split
    · simp
    · exact htakes.free

/-- A report is written in place if the tree takes it. -/
theorem exists_writeReport {report : Conflict Float} (hlive : s.sandbox.root = none)
    (hdirectory : s.settings.conflictDir = some directory) (hdirect : directory.IsDirect) (hclosed : w.tree.Closed)
    (htakes : w.tree.Takes (directory.child (Conflict.fileName report.targetPath)) report.fileText) :
    ∃ w' chars, (s.writeReport report).outcome w =
        (.ok (some (directory.child (Conflict.fileName report.targetPath))), w') ∧
      w.tree.Wrote w'.tree (directory.child (Conflict.fileName report.targetPath)) chars := by
  have hchild : (directory.child (Conflict.fileName report.targetPath)).IsDirect := by
    refine ⟨hdirect.absolute, fun hmem => ?_⟩
    rcases List.mem_append.mp hmem with hmem | hmem
    · exact hdirect.plain hmem
    · exact Conflict.fileName_ne_parentName _ (List.mem_singleton.mp hmem).symm
  obtain ⟨t', hwrite⟩ := htakes.write hclosed hchild w.cwd
  obtain ⟨-, chars, -, hwrote⟩ := Tree.takes_of_write hclosed hchild hwrite
  refine ⟨{ w with tree := t' }, chars, ?_, hwrote⟩
  have hresolve : s.sandbox.resolve (directory.child (Conflict.fileName report.targetPath)) =
      .ok (directory.child (Conflict.fileName report.targetPath)) := by
    simp only [Sandbox.resolve, hlive]
  have hsandbox : (s.sandbox.writeText (directory.child (Conflict.fileName report.targetPath)) report.fileText).outcome w =
      (.ok (directory.child (Conflict.fileName report.targetPath)), { w with tree := t' }) :=
    (Attempt.outcome_bind (Attempt.outcome_ofExcept .file hresolve w) _).trans
      (Attempt.outcome_bind (Attempt.outcome_writeText hwrite) _)
  simp only [writeReport, hdirectory]
  refine (Attempt.outcome_bind (Attempt.outcome_lift _ w) _).trans ?_
  rw [show Script.run (ExceptT.run (s.sandbox.writeText _ report.fileText)) w = _ from hsandbox]
  rfl

/-- Reports that the tree takes are all written in place, one after the other. -/
theorem exists_writeReports {reports : List (Conflict Float)} (hlive : s.sandbox.root = none)
    (hdirectory : s.settings.conflictDir = some directory) (hdirect : directory.IsDirect) (hclosed : w.tree.Closed)
    (htakes : ∀ report ∈ reports,
      w.tree.Takes (directory.child (Conflict.fileName report.targetPath)) report.fileText) :
    ∃ w', (reports.mapM s.writeReport).outcome w =
      (.ok (reports.map fun report => some (directory.child (Conflict.fileName report.targetPath))), w') := by
  induction reports generalizing w with
  | nil => exact ⟨w, rfl⟩
  | cons report reports ih =>
    obtain ⟨hfirst, hrest⟩ := List.forall_mem_cons.mp htakes
    obtain ⟨w₁, chars, hwritten, hwrote⟩ := exists_writeReport hlive hdirectory hdirect hclosed hfirst
    obtain ⟨w', hothers⟩ := ih (hwrote.closed hfirst hclosed) fun other hother =>
      takes_of_wrote hwrote (by simp [Path.child]) (hrest other hother) (by simp [Path.child])
    refine ⟨w', ?_⟩
    rw [List.mapM_cons]
    exact (Attempt.outcome_bind hwritten _).trans (Attempt.outcome_bind hothers _)

/-- Each report that was written is in the file that is named after its target, unless a later one was written to that file.
Two reports go to the same file if the slugs of their targets have the same words, or one of them is cut; this is not so for
two plain targets. -/
theorem reports_kept {reports : List (Conflict Float)} {places : List (Option Path)}
    (h : (reports.mapM s.writeReport).outcome w = (.ok places, w')) :
    ∀ report p, (report, some p) ∈ reports.zip places →
      (∃ last, lastAt p (reports.zip places) = some last ∧ w'.Shows p last.fileText) ∧
      ∀ other q, (other, some q) ∈ reports.zip places →
        (q = p ↔ Conflict.slugStyle.words other.targetPath = Conflict.slugStyle.words report.targetPath ∨
          Conflict.slugStyle.Clash other.targetPath report.targetPath) ∧
        (IsPlainTarget other.targetPath → IsPlainTarget report.targetPath → q = p →
          other.targetPath = report.targetPath) := by
  intro report p hmem
  obtain ⟨directory, hdirectory⟩ : ∃ directory, ∀ d, s.settings.conflictDir = some d → d = directory :=
    ⟨s.settings.conflictDir.getD Path.here, fun d hd => by rw [hd]; rfl⟩
  obtain ⟨hplaced, hshown⟩ := shows_writeReports hdirectory h
  have hp := hplaced report p hmem
  constructor
  · obtain ⟨last, hlast⟩ := exists_lastAt hmem
    refine ⟨last, hlast, ?_⟩
    rw [hp] at hlast ⊢
    exact hshown _ _ (Conflict.fileName_ne_parentName _) (.inl (congrArg (Option.map Conflict.fileText) hlast))
  · intro other q hother
    have hsame : q = p ↔ Conflict.fileName other.targetPath = Conflict.fileName report.targetPath := by
      rw [hp, hplaced other q hother, Path.child_inj]
    exact ⟨hsame.trans Conflict.fileName_eq_iff, fun hplain hplain' heq =>
      Conflict.eq_of_fileName_eq hplain hplain' (hsame.mp heq)⟩

/-! ## A sample -/

/-- The sample session with a directory for reports. -/
def reportingSession : Session :=
  { sampleSession with settings := { sampleSettings with conflictDir := some ⟨.slash, ["plugin"]⟩ } }

/-- A report on a line that is to be taken out of a file and is not there. -/
def missingLine (target : Text) : Conflict Float :=
  ⟨target, [], { targetPath := target, kind := .deletion, stock := ["gone;"] }, 1, 0.5, none⟩

/-- The file for this report. -/
def reportOf (target : Text) : Path := ⟨.slash, ["plugin", Conflict.fileName target]⟩

theorem exists_writeReports_sample (targets : List Text)
    (hroom : ∀ target ∈ targets, (reportOf target).unfit? = none ∧
      (reportOf target).toText.bytes.length + Tree.scratchNameExtra ≤ Tree.longestPath ∧
      (∀ name ∈ (reportOf target).names, name.bytes.length ≤ Tree.longestName) ∧
      (reportOf target).name.bytes.length + Tree.scratchNameExtra ≤ Tree.longestName ∧
      (worldOf []).tree.entry? (reportOf target).names = none) :
    ∃ w', ((targets.map missingLine).mapM reportingSession.writeReport).outcome (worldOf []) =
      (.ok (targets.map fun target => some (reportOf target)), w') := by
  have hclosed : (worldOf []).tree.Closed := by decide
  have hdirectory : (worldOf []).tree.entry? ["plugin"] = some .directory := by decide
  have htakes : ∀ report ∈ targets.map missingLine,
      (worldOf []).tree.Takes (Path.child ⟨.slash, ["plugin"]⟩ (Conflict.fileName report.targetPath)) report.fileText := by
    intro report hreport
    obtain ⟨target, htarget, rfl⟩ := List.mem_map.mp hreport
    obtain ⟨hfit, hpath, hnames, hname, hfree⟩ := hroom target htarget
    obtain ⟨chars, hchars⟩ := (Conflict.isWhole_fileText (missingLine target)).exists_chars
    refine ⟨hfit, hpath, List.cons_ne_nil _ _, hnames, hname, by rw [hchars]; rfl, fun front hfront => ?_, fun hdir => ?_⟩
    · exact .inr (hclosed.directory_of_prefix hfront hdirectory)
    · cases hfree.symm.trans hdir
  obtain ⟨w', hw'⟩ := exists_writeReports (s := reportingSession) rfl rfl ⟨rfl, by decide⟩ hclosed htakes
  rw [List.map_map] at hw'
  exact ⟨w', hw'⟩

theorem reports_kept_sample :
    ∃ w', ([missingLine "A/lib.cpp", missingLine "b.cpp"].mapM reportingSession.writeReport).outcome (worldOf []) =
        (.ok [some (reportOf "A/lib.cpp"), some (reportOf "b.cpp")], w') ∧
      w'.Shows (reportOf "A/lib.cpp") (missingLine "A/lib.cpp").fileText ∧
      w'.Shows (reportOf "b.cpp") (missingLine "b.cpp").fileText := by
  obtain ⟨w', h⟩ := exists_writeReports_sample ["A/lib.cpp", "b.cpp"] (by decide)
  have hne : reportOf "b.cpp" ≠ reportOf "A/lib.cpp" := by decide
  have hkept := reports_kept h
  obtain ⟨⟨first, hfirst, hshows⟩, -⟩ := hkept (missingLine "A/lib.cpp") (reportOf "A/lib.cpp") (by simp)
  obtain ⟨⟨second, hsecond, hshows'⟩, -⟩ := hkept (missingLine "b.cpp") (reportOf "b.cpp") (by simp)
  obtain rfl : missingLine "A/lib.cpp" = first := by simpa [lastAt, hne] using hfirst
  obtain rfl : missingLine "b.cpp" = second := by simpa [lastAt] using hsecond
  exact ⟨w', h, hshows, hshows'⟩

/-- The reports on two keys go to one file, where the second one takes the place of the first one. -/
theorem reports_lost :
    (keyOf "a/b.cpp" = .ok "a/b.cpp" ∧ keyOf "a-b.cpp" = .ok "a-b.cpp") ∧
      ∃ w', ([missingLine "a/b.cpp", missingLine "a-b.cpp"].mapM reportingSession.writeReport).outcome (worldOf []) =
          (.ok [some ⟨.slash, ["plugin", "a-b.cpp.conflict.json"]⟩,
            some ⟨.slash, ["plugin", "a-b.cpp.conflict.json"]⟩], w') ∧
        w'.Shows ⟨.slash, ["plugin", "a-b.cpp.conflict.json"]⟩ (missingLine "a-b.cpp").fileText := by
  obtain ⟨w', h⟩ := exists_writeReports_sample ["a/b.cpp", "a-b.cpp"] (by decide)
  have hsame : reportOf "a/b.cpp" = ⟨.slash, ["plugin", "a-b.cpp.conflict.json"]⟩ ∧
      reportOf "a-b.cpp" = ⟨.slash, ["plugin", "a-b.cpp.conflict.json"]⟩ := by decide
  rw [List.map_cons, List.map_cons, List.map_nil, List.map_cons, List.map_cons, List.map_nil, hsame.1, hsame.2] at h
  have hdirectory : ∀ d, reportingSession.settings.conflictDir = some d → d = ⟨.slash, ["plugin"]⟩ :=
    fun d hd => (Option.some.inj hd).symm
  obtain ⟨-, hshown⟩ := shows_writeReports hdirectory h
  exact ⟨by decide, w', h, hshown "a-b.cpp.conflict.json" _ (by decide) (.inl rfl)⟩

end Session

end Regraft

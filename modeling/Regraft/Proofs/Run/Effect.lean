import Regraft.Proofs.Files.Effect
import Regraft.Proofs.Run.Plan
import Regraft.Proofs.Store.Appending
import Regraft.Run.Process
/-!
# What an outcome says about the files

A job is processed by one of three pipelines, any step of which may fail. Only the last step of each writes, and what
it writes goes into one file. So the outcome tells what has become of the files (`Session.Accounts`), in place or in
the copy of a dry run, whatever the files and the store hold and wherever the job fails.

* `Store.ends_generate`, `Change.ends_committed`: what the pipelines write;
* `Session.ends_perform`, `Session.ends_settle`: an action and what is made of its fault;
* `Session.process_accounts`: the outcome of a job accounts for the files.
-/
namespace Regraft

/-- The name of a report leads into its directory. -/
theorem Conflict.fileName_ne_parentName (targetPath : Text) : fileName targetPath ≠ parentName := by
  intro h
  have hlen := congrArg List.length h
  have hsuffix : (".conflict.json" : Text).length = 14 := by decide
  simp only [fileName, List.length_append, hsuffix, parentName, List.length_cons, List.length_nil] at hlen
  omega

variable {w w' : World}

/-! ## The store -/

namespace Store

variable (s : Store) (w : World) (target : Text)

/-- The version that was stored for a target is written to its artifact, and no other file has changed. -/
def Accounts (s : Store) (w : World) (target : Text) (stored : Stored) (w' : World) : Prop :=
  ∃ first key place, keyOf target = .ok first ∧ keyOf first = .ok key ∧
    s.artifactPath key stored.version.order = .ok place ∧
      s.sandbox.Writes w w' place stored.version.artifact stored.written

/-- Generating writes the artifact of the version that it stores, or changes nothing. -/
theorem ends_generate (tag : Tag) (context : Int) (text : Text) :
    (s.generate tag context text target).Ends w
      (fun g w' => match g.stored with
        | none => w' = w
        | some stored => s.Accounts w target stored w')
      fun _ w' => w.SameFiles w' := by
  refine (Attempt.looks_ofExcept .key _).ends_bind (fun _ _ => .refl w) fun first hfirst => ?_
  refine (Attempt.looks_ofExcept .malformed _).ends_bind (fun _ _ => .refl w) fun segments _ => ?_
  split
  · exact Attempt.ends_pure rfl
  refine (Attempt.looks_ofExcept .context _).ends_bind (fun _ _ => .refl w) fun size _ => ?_
  refine (s.looks_load first).ends_bind (fun _ _ => .refl w) fun versions _ => ?_
  split
  · exact Attempt.ends_pure rfl
  · refine (s.ends_append w first _).bind fun stored w' happended => ?_
    obtain ⟨key, vs, place, hkey, -, -, hplace, hwrites⟩ := happended
    exact Attempt.ends_pure ⟨first, key, place, Attempt.value_ofExcept_eq_ok hfirst, hkey, hplace, hwrites⟩

end Store

/-! ## Changes -/

namespace Change

variable (s : Sandbox) (tag : Tag) (p : Path)

theorem looks_ofApply (m : Matching Float) (versions : VersionSet) : (ofApply s tag m p versions).Looks := by
  refine (s.looks_readText p).bind fun before => ?_
  exact (Attempt.looks_ofExcept _ _).bind fun _ => Attempt.looks_pure _

theorem looks_ofClear : (ofClear s tag p).Looks := by
  refine (s.looks_readText p).bind fun before => ?_
  exact (Attempt.looks_ofExcept _ _).bind fun _ => Attempt.looks_pure _

/-- A change is one of the text that the file holds. -/
def Reads (s : Sandbox) (p : Path) (w : World) (c : Change) : Prop :=
  c.path = p ∧ (s.readText p).value w = .ok c.before

variable {s tag p}

theorem reads_ofApply {m : Matching Float} {versions : VersionSet} {c : Change}
    (h : (ofApply s tag m p versions).value w = .ok c) : c.Reads s p w := by
  obtain ⟨before, hbefore, hrest⟩ := (s.looks_readText p).bind_eq_ok h
  obtain ⟨applied, -, hchange⟩ := (Attempt.looks_ofExcept _ _).bind_eq_ok hrest
  obtain rfl := Except.ok.inj hchange
  exact ⟨rfl, hbefore⟩

theorem reads_ofClear {c : Change} (h : (ofClear s tag p).value w = .ok c) : c.Reads s p w := by
  obtain ⟨before, hbefore, hrest⟩ := (s.looks_readText p).bind_eq_ok h
  obtain ⟨content, -, hchange⟩ := (Attempt.looks_ofExcept _ _).bind_eq_ok hrest
  obtain rfl := Except.ok.inj hchange
  exact ⟨rfl, hbefore⟩

/-- A text other than the one that the file at a path holds was written for that path. -/
def Rewrites (s : Sandbox) (w : World) (p : Path) (written : Option Path) (w' : World) : Prop :=
  ∃ before after destination, (s.readText p).outcome w = (.ok before, w) ∧ after ≠ before ∧
    written = some destination ∧ s.Writes w w' p after destination

/-- Committing a change writes its text, unless it is the one that the file holds. -/
theorem ends_committed {x : Attempt Change} (hx : x.Looks) (hreads : ∀ c, x.value w = .ok c → c.Reads s p w)
    (action : Action) :
    Attempt.Ends (do let change ← x; return (change, ← change.commit s action)) w
      (fun done w' => if done.1.changed then Rewrites s w p done.2 w' else done.2 = none ∧ w' = w)
      fun _ w' => w.SameFiles w' := by
  refine hx.ends_bind (fun _ _ => .refl w) fun c hc => ?_
  obtain ⟨rfl, hbefore⟩ := hreads c hc
  unfold commit
  cases hchanged : c.changed with
  | false =>
    refine Attempt.ends_pure ?_
    simp [hchanged]
  | true =>
    have hne : c.content ≠ c.before := by simpa [changed] using hchanged
    have hread := ((s.looks_readText c.path).outcome_eq w).trans (congrArg (·, w) hbefore)
    refine Attempt.Ends.bind (R := fun written w' => Rewrites s w c.path written w') ?_ fun written w' hwrites => ?_
    · refine (s.ends_writeText w c.path c.content).bind fun destination w' hwrites => ?_
      exact Attempt.ends_journal _ (Attempt.ends_pure ⟨_, _, destination, hread, hne, rfl, hwrites.journal _⟩)
    · refine Attempt.ends_pure ?_
      simpa only [hchanged, if_true] using hwrites

end Change

/-! ## Actions -/

namespace Session

variable (s : Session) (w : World) (action : Action) (job : Job)

/-- The report of a conflict stands in its file, and no other file has changed; without a report none has. -/
def Reports (s : Session) (w : World) (p : Processed) (w' : World) : Prop :=
  match p.outcome.reportPath with
  | none => p.written = none ∧ w.SameFiles w'
  | some place => p.written = some place ∧ ∃ report directory, p.outcome.conflict = some report ∧
      s.settings.conflictDir = some directory ∧
        s.sandbox.Writes w w' (directory.child (Conflict.fileName report.targetPath)) report.fileText place

/-- What has become of the files is what the outcome of a job says. -/
def Accounts (s : Session) (action : Action) (job : Job) (w : World) (p : Processed) (w' : World) : Prop :=
  match p.outcome.status, action with
  | .unchanged, _ => p.written = none ∧ w' = w
  | .failed, _ => p.written = none ∧ w.SameFiles w'
  | .conflict, _ => s.Reports w p w'
  | .updated, .generate => ∃ stored, p.outcome.version = some stored.version.order ∧
      p.written = some stored.written ∧ s.store.Accounts w job.targetPath stored w'
  | .updated, _ => Change.Rewrites s.sandbox w job.file p.written w'
  | .skipped, _ => False

theorem looks_readGuarded (p : Path) : (s.readGuarded p).Looks := by
  refine (s.sandbox.looks_readText p).tried fun r => ?_
  cases r with
  | ok text => exact Attempt.looks_pure _
  | error fault => cases fault <;> first | exact Attempt.looks_pure _ | exact Attempt.looks_throw _

theorem looks_requireFile : (s.requireFile job).Looks := by
  refine (s.sandbox.looks_isThere job.file).bind fun found => ?_
  cases found with
  | true => exact Attempt.looks_pure _
  | false => exact Attempt.looks_throw _

theorem ends_generate :
    (s.generate job).Ends w (s.Accounts .generate job w) fun _ w' => w.SameFiles w' := by
  refine (s.looks_readGuarded job.file).ends_bind (fun _ _ => .refl w) fun text? _ => ?_
  cases text? with
  | none => exact Attempt.ends_pure ⟨rfl, rfl⟩
  | some text =>
    simp only
    split
    · exact Attempt.ends_pure ⟨rfl, rfl⟩
    refine (s.store.ends_generate w job.targetPath _ _ text).bind fun g w' hg => ?_
    cases hstored : g.stored with
    | none =>
      simp only [hstored] at hg ⊢
      exact Attempt.ends_pure ⟨rfl, hg⟩
    | some stored =>
      simp only [hstored] at hg ⊢
      obtain ⟨first, key, place, hfirst, hkey, hplace, hwrites⟩ := hg
      exact Attempt.ends_journal _ (Attempt.ends_pure
        ⟨stored, rfl, rfl, first, key, place, hfirst, hkey, hplace, hwrites.journal _⟩)

theorem ends_apply : (s.apply job).Ends w (s.Accounts .apply job w) fun _ w' => w.SameFiles w' := by
  refine (s.looks_requireFile job).ends_bind (fun _ _ => .refl w) fun _ _ => ?_
  refine (s.store.looks_load job.targetPath).ends_bind (fun _ _ => .refl w) fun versions _ => ?_
  split
  · exact Attempt.ends_pure ⟨rfl, rfl⟩
  refine (Change.ends_committed (Change.looks_ofApply _ _ _ _ _) (fun _ => Change.reads_ofApply) .apply).bind
    fun done w' hdone => ?_
  cases hchanged : done.1.changed <;> simp only [hchanged] at hdone ⊢ <;> exact Attempt.ends_pure hdone

theorem ends_clear : (s.clear job).Ends w (s.Accounts .clear job w) fun _ w' => w.SameFiles w' := by
  refine (s.looks_requireFile job).ends_bind (fun _ _ => .refl w) fun _ _ => ?_
  refine (Change.ends_committed (Change.looks_ofClear _ _ _) (fun _ => Change.reads_ofClear) .clear).bind
    fun done w' hdone => ?_
  cases hchanged : done.1.changed <;> simp only [hchanged] at hdone ⊢ <;> exact Attempt.ends_pure hdone

/-- An action writes what its outcome says, and one that fails has changed no file. -/
theorem ends_perform : (s.perform action job).Ends w (s.Accounts action job w) fun _ w' => w.SameFiles w' := by
  cases action with
  | generate => exact s.ends_generate w job
  | apply => exact s.ends_apply w job
  | clear => exact s.ends_clear w job

/-! ## Faults -/

/-- The report of a conflict is written to one file, or none is changed. -/
theorem ends_writeReport (report : Conflict Float) :
    (s.writeReport report).Ends w
      (fun place w' => match place with
        | none => w.SameFiles w'
        | some place => ∃ directory, s.settings.conflictDir = some directory ∧
            s.sandbox.Writes w w' (directory.child (Conflict.fileName report.targetPath)) report.fileText place)
      fun _ w' => w.SameFiles w' := by
  unfold writeReport
  cases hdirectory : s.settings.conflictDir with
  | none => exact Attempt.ends_pure (.refl w)
  | some directory =>
    refine Attempt.ends_tried ((s.sandbox.ends_writeText w _ _).mono (fun place w' hwrites => ?_) fun fault w' hsame => ?_)
    · exact Attempt.ends_pure ⟨directory, rfl, hwrites⟩
    · simp only
      split
      · exact Attempt.ends_pure hsame
      · exact Attempt.ends_throw hsame

/-- What is made of a fault accounts for the files, if none has changed so far. -/
theorem ends_settle {start : World} (hstart : start.SameFiles w) (fault : Fault) :
    (s.settle action job fault).Ends w (s.Accounts action job start) fun _ w' => start.SameFiles w' := by
  unfold settle
  cases hconflict : fault.conflict? with
  | none =>
    simp only
    split
    · exact Attempt.ends_pure ⟨rfl, hstart⟩
    · exact Attempt.ends_throw hstart
  | some report =>
    have hreport := (s.ends_writeReport w report).mono (fun _ _ h => h) fun _ _ hsame => hstart.trans hsame
    refine hreport.bind fun place w' hreport => Attempt.ends_pure ?_
    cases place with
    | none => exact ⟨rfl, hstart.trans hreport⟩
    | some place =>
      obtain ⟨directory, hdirectory, hwrites⟩ := hreport
      exact ⟨rfl, report, directory, rfl, hdirectory, hwrites.of_sameFiles hstart⟩

/-! ## Processing -/

theorem ends_process : (s.process action job).Ends w (s.Accounts action job w) fun _ w' => w.SameFiles w' :=
  Attempt.ends_tried ((s.ends_perform w action job).mono (fun _ _ haccounts => Attempt.ends_pure haccounts)
    fun fault w₁ hsame => s.ends_settle w₁ action job hsame fault)

/-- The outcome of a job, of whatever action, accounts for the files. Unchanged, nothing has changed; failed, no file
has. A conflict may have one file written, its report. An update under generate has written the artifact of the version
that it names, and one under the other actions the file of the job, with a text other than the one read from it. In
each case no other file has changed. -/
theorem process_accounts {s : Session} {action : Action} {job : Job} {w w' : World} {p : Processed}
    (h : (s.process action job).outcome w = (.ok p, w')) : s.Accounts action job w p w' :=
  (s.ends_process w action job).of_ok h

/-- The sample session as a dry run. -/
def drySession : Session := { sampleSession with sandbox := ⟨some ⟨.slash, ["box".toList]⟩, []⟩ }

def dryJob : Job := ⟨"b.cpp".toList, "b.cpp".toList, ⟨.slash, ["engine".toList, "b.cpp".toList]⟩⟩

/-- A file of two lines, the first of which is an addition. -/
def dryWorld : World :=
  { worldOf [] with
    tree := (worldOf []).tree.place ["engine".toList, "b.cpp".toList]
      (.file (.text "int a; // Mod\nint b;\n".toList)) }

/-- A dry run of clear writes the copy of the file. -/
theorem process_accounts_sample : ∃ p w', (drySession.process .clear dryJob).outcome dryWorld = (.ok p, w') ∧
    drySession.Accounts .clear dryJob dryWorld p w' ∧ p.outcome.status = .updated ∧
      p.written = some ⟨.slash, ["box".toList, "engine".toList, "b.cpp".toList]⟩ ∧
        w'.tree.entry? ["box".toList, "engine".toList, "b.cpp".toList] = some (.file (.text "int b;\n".toList)) :=
  ⟨_, _, rfl, process_accounts rfl, rfl, rfl, rfl⟩

end Session

end Regraft

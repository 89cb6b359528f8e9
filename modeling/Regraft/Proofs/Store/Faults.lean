import Regraft.Proofs.Files.Fit
import Regraft.Proofs.Record.Whole
import Regraft.Proofs.Splice.Content
import Regraft.Proofs.Store.Loading
/-!
# Faults of the store

What goes wrong in a store whose paths are fit is a fault of one file, if the target has a key and it can be told what
its artifacts are (`Store.Legible`): a guard that cannot be made out, an artifact that holds no version, or a refusal of
the system.

* `Store.yields_load`: the versions of a target, or such a fault;
* `Store.yields_append`, `Store.yields_generate`: a version more, or such a fault.
-/
namespace Regraft

/-- A file holds no version, or it cannot be told what it holds. -/
theorem World.version_eq_error {w : World} {p : Path} {fault : Fault} (h : w.version p = .error fault) :
    fault = .artifact p ∨ fault = .tooDeep p := by
  unfold World.version at h
  split at h
  · split at h <;> cases h
    · exact .inl rfl
    · exact .inr rfl
  · cases h
    exact .inl rfl

/-- It can be told what a file is, and if it holds a version, that has a property. -/
def World.Tells (w : World) (p : Path) (P : Version → Prop) : Prop :=
  w.version p ≠ .error (.tooDeep p) ∧ ∀ v, w.version p = .ok v → P v

namespace Store

variable {s : Store} {target key : Text} {P : Version → Prop} (w : World)

/-- The root of the store, and the places of its sandbox, are fit. -/
structure IsFit (s : Store) : Prop where
  root : s.root.IsFit
  sandbox : s.sandbox.IsFit

/-- Of every artifact of a key, where the store looks for them, it can be told what it is, and the versions that they
hold have a property. -/
def Legible (s : Store) (w : World) (key : Text) (P : Version → Prop) : Prop :=
  ∀ places, s.sandbox.searchRoots (s.directory key) = .ok places → ∀ dir ∈ places,
    ∀ file ∈ w.artifacts dir (Path.ofText key).name, w.Tells (dir.child file) P

/-! ## Loading -/

theorem yields_readVersion {p : Path} (h : w.Tells p P) : (readVersion p).Yields w P Fault.OfJob := by
  unfold Attempt.Yields Attempt.Ends
  rw [outcome_readVersion]
  cases hversion : w.version p with
  | ok v => exact h.2 v hversion
  | error fault =>
    rcases World.version_eq_error hversion with rfl | rfl
    · exact .inr rfl
    · exact absurd hversion h.1

/-- The artifacts in one place hold versions, or the first that does not is the fault of the file. -/
theorem yields_readFrom {name : Text} {dir : Path} (seen : List Text)
    (h : ∀ file ∈ w.artifacts dir name, w.Tells (dir.child file) P) :
    (readFrom name seen dir).Yields w (fun found => ∀ v ∈ found.2, P v) Fault.OfJob := by
  have hdirectory : (Attempt.isDirectory dir).Yields w (fun _ => True) Fault.OfJob :=
    ((Attempt.yields_probe dir w).mono (fun _ h => h) fun _ => Fault.ofJob_of_bySystem).bind
      fun _ _ _ => Attempt.ends_pure trivial
  refine (Attempt.looks_isDirectory dir).yields_bind hdirectory fun isDirectory _ _ => ?_
  cases isDirectory with
  | false => exact Attempt.ends_pure fun v hv => absurd hv List.not_mem_nil
  | true =>
    refine (Attempt.looks_children dir).yields_bind (R := fun children => children = w.tree.children w.cwd dir) rfl
      fun children _ hchildren => ?_
    subst hchildren
    refine (Attempt.Looks.mapM (fun f => looks_readVersion (dir.child f)) _).yields_bind
      (Attempt.Looks.yields_mapM (fun f => looks_readVersion (dir.child f)) fun file hfile => ?_)
      fun versions _ hversions => Attempt.ends_pure hversions
    obtain ⟨hchild, hname⟩ := List.mem_filter.mp (List.mem_mergeSort.mp hfile)
    exact yields_readVersion w (h file (List.mem_filter.mpr ⟨hchild, (Bool.and_eq_true_iff.mp hname).1⟩))

theorem IsFit.directory (hs : s.IsFit) (hkey : key.FitsPath) : (s.directory key).IsFit :=
  (hs.root.join (Path.isFit_ofText hkey)).parent

/-- The versions of a target are loaded, or what goes wrong is the fault of the file. -/
theorem yields_load (hs : s.IsFit) (hkey : keyOf target = .ok key) (hfit : s.sandbox.isDry = true → key.FitsPath)
    (h : s.Legible w key P) : (s.load target).Yields w (fun vs => ∀ v ∈ vs.versions, P v) Fault.OfJob := by
  obtain ⟨places, hplaces, -⟩ := hs.sandbox.searchRoots fun hdry => hs.directory (hfit hdry)
  unfold load
  refine Attempt.yields_bind_ok hkey (Attempt.yields_bind_ok hplaces ?_)
  refine Attempt.Yields.bind (R := fun found => ∀ v ∈ found.2, P v) ?_ fun found _ hfound => ?_
  · refine Attempt.Looks.yields_foldlM (fun found dir => ?_) (fun found dir hdir hfound => ?_) ([], [])
      fun v hv => absurd hv List.not_mem_nil
    · exact (looks_readFrom _ _ dir).bind fun _ => Attempt.looks_pure _
    · refine (looks_readFrom _ _ dir).yields_bind (yields_readFrom w _ (h places hplaces dir hdir)) fun more _ hmore => ?_
      exact Attempt.ends_pure (List.forall_mem_append.mpr ⟨hfound, hmore⟩)
  · exact Attempt.ends_pure fun v hv => hfound v (List.mem_mergeSort.mp hv)

/-! ## Appending -/

/-- The number behind that of a version is not too long to be written. -/
def HasSuccessor (v : Version) : Prop := (showNat (v.order + 1).natAbs).length ≤ longestInteger

theorem nextOrder_short {versions : VersionSet} (h : ∀ v ∈ versions.versions, HasSuccessor v) :
    (showNat versions.nextOrder.natAbs).length ≤ longestInteger := by
  unfold VersionSet.nextOrder
  cases hnewest : versions.newest? with
  | none => decide
  | some v => exact h v (List.mem_of_getLast? hnewest)

theorem isWhole_stamp {r : Record} {order : Int} (hkey : key.IsWhole) (hr : r.IsWhole) :
    (stamp key order r).IsWhole :=
  ⟨hkey, hr.texts⟩

/-- A key that stands for itself and can be written into an artifact and into its path. -/
structure IsKey (key : Text) : Prop where
  self : keyOf key = .ok key
  whole : key.IsWhole
  fits : key.FitsPath

theorem IsKey.artifactPath (hkey : IsKey key) (hs : s.IsFit) {order : Int}
    (hshort : (showNat order.natAbs).length ≤ longestInteger) :
    ∃ place, s.artifactPath key order = .ok place ∧ place.IsFit := by
  have hname : (artifactName key order).FitsPath := by
    have hpoint : (char '.').hasBytes = true ∧ char '.' ≠ char '\x00' := by decide
    have hsuffix : artifactSuffix.FitsPath := (Text.isWhole_ofString _).fitsPath (by decide)
    exact (hkey.fits.append (List.forall_mem_cons.mpr ⟨hpoint, fitsPath_showPadded _ _⟩)).append hsuffix
  refine ⟨_, ?_, hs.root.join (Path.isFit_ofText hname)⟩
  simp only [Store.artifactPath, hkey.self, bind, Except.bind, if_neg (Nat.not_lt.mpr hshort)]
  rfl

/-- Whole records are stored, or what goes wrong is the fault of the file. -/
theorem yields_append (hs : s.IsFit) (hkey : IsKey key) {records : List Record} (hrecords : ∀ r ∈ records, r.IsWhole)
    (h : s.Legible w key HasSuccessor) : (s.append key records).Yields w (fun _ => True) Fault.OfJob := by
  unfold append
  refine Attempt.yields_bind_ok hkey.self ?_
  refine (s.looks_load key).yields_bind (yields_load w hs hkey.self (fun _ => hkey.fits) h) fun versions _ hversions => ?_
  refine Attempt.looks_now.yields_bind (R := fun _ => True) trivial fun now _ _ => ?_
  obtain ⟨place, hplace, hfit⟩ := hkey.artifactPath hs (nextOrder_short hversions)
  refine Attempt.yields_bind_ok hplace ?_
  have hwhole := Version.isWhole_artifact
    (v := ⟨versions.nextOrder, now, records.map (stamp key versions.nextOrder)⟩)
    (List.forall_mem_map.mpr fun r hr => isWhole_stamp hkey.whole (hrecords r hr))
  have hwrite := (Sandbox.yields_writeText w hs.sandbox hfit hwhole).mono (fun _ h => h)
    fun _ => Fault.ofJob_of_bySystem
  exact hwrite.bind fun _ _ _ => Attempt.ends_pure trivial

/-- The segments of a whole text are stored, or what goes wrong is the fault of the file. -/
theorem yields_generate (hs : s.IsFit) (hkey : keyOf target = .ok key) (hself : IsKey key) (tag : Tag) (context : Nat)
    {text : Text} (htext : text.IsWhole) (h : s.Legible w key HasSuccessor) :
    (s.generate tag context text target).Yields w (fun _ => True) Fault.OfJob := by
  have hcontext : checkContext context = .ok context := by simp [checkContext]
  unfold generate
  refine Attempt.yields_bind_ok hkey ?_
  cases hparse : Segment.parse tag (Buffer.ofText text).lines with
  | error e => exact Attempt.yields_bind_error hparse (.inr rfl)
  | ok segments =>
    refine Attempt.yields_bind_ok hparse ?_
    split
    · exact Attempt.ends_pure trivial
    refine Attempt.yields_bind_ok hcontext ?_
    refine (s.looks_load key).yields_bind (yields_load w hs hself.self (fun _ => hself.fits) h) fun versions _ _ => ?_
    split
    · exact Attempt.ends_pure trivial
    · have hrecords := isWhole_buildRecords hparse (isWhole_lines htext) hself.whole context
      exact (yields_append w hs hself hrecords h).bind fun _ _ _ => Attempt.ends_pure trivial

end Store

end Regraft

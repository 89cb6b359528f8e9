import Regraft.Proofs.Files.Effect
import Regraft.Proofs.Files.Growth
import Regraft.Proofs.Record.Artifact
import Regraft.Proofs.Store.Key
import Regraft.Proofs.Store.Loading
/-!
# What appending does

An append looks for the versions there are, and then writes one file. If it fails, it has changed nothing, or has only
made directories on the way to that file. If it succeeds, the file of the new version is there, and besides it nothing
has changed but for such directories (`Store.append_cases`). Which version it is goes by those that are loaded for the
key, in a dry run too (`Store.ends_append`).
-/
namespace Regraft

open Regraft.Tree (behind)

/-! ## Paths in a store -/

theorem Path.join_ofNames (p : Path) (names : List Text) : p.join (ofNames names) = behind p names := by
  simp [Path.join, Path.ofNames, Path.isAbsolute, behind]

theorem child_behind (root : Path) (names : List Text) (order : Nat) :
    (behind root names.dropLast).child (artifactFile (names.getLastD []) order) =
      behind root (artifactNames names order) := by
  simp [behind, Path.child, artifactNames]

namespace KeyNames

variable {key : Text} {names : List Text}

theorem directory_eq (h : KeyNames key names) (s : Store) : s.directory key = behind s.root names.dropLast := by
  rw [Store.directory, h.ofText, Path.join_ofNames]
  simp [behind, Path.parent, List.dropLast_append_of_ne_nil h.ne_nil]

theorem name_eq (h : KeyNames key names) : (Path.ofText key).name = names.getLastD [] := by
  rw [h.ofText]
  rfl

end KeyNames

namespace Store

variable {s : Store} {target key : Text} {records : List Record} {w w' : World} {base : Location}
  {r : Except Fault Stored}

/-- The place of a version, if its number can be written. -/
theorem artifactPath_eq (s : Store) {names : List Text} (hkey : keyOf target = .ok key) (hnames : KeyNames key names)
    (order : Nat) : s.artifactPath target order =
      if longestInteger < (showNat order).length then .error .orderTooLong
      else .ok (behind s.root (artifactNames names order)) := by
  simp only [artifactPath, hkey, bind, Except.bind, Int.natAbs_natCast, throw, throwThe, MonadExceptOf.throw, pure,
    Except.pure, hnames.ofText_artifactName, Path.join_ofNames]

theorem artifactPath_eq_ok {order : Nat} {place : Path} (h : s.artifactPath target order = .ok place) :
    ∃ key names, keyOf target = .ok key ∧ KeyNames key names ∧ IsShort order ∧
      place = behind s.root (artifactNames names order) := by
  cases hkey : keyOf target with
  | error fault => simp [artifactPath, hkey, bind, Except.bind] at h
  | ok key =>
    obtain ⟨names, hnames⟩ := exists_keyNames hkey
    rw [artifactPath_eq s hkey hnames] at h
    split at h
    · cases h
    · rename_i hshort
      exact ⟨key, names, rfl, hnames, Nat.not_lt.mp hshort, (Except.ok.inj h).symm⟩

/-- The only way to have no place for a version of a target that is a key is that its number is too long. -/
theorem artifactPath_eq_error {order : Int} {e : KeyFault} (hkey : keyOf target = .ok key)
    (h : s.artifactPath target order = .error e) : e = .orderTooLong ∧ ¬ IsShort order := by
  simp only [artifactPath, hkey, bind, Except.bind, throw, throwThe, MonadExceptOf.throw, pure, Except.pure] at h
  split at h
  · rename_i hlong
    exact ⟨(Except.error.inj h).symm, Nat.not_le.mpr hlong⟩
  · cases h

/-- Writing in place comes to what the tree makes of it. -/
theorem outcome_writeText (hlive : s.sandbox.root = none) (w : World) (place : Path) (text : Text) :
    Attempt.outcome (s.sandbox.writeText place text) w =
      (match (w.tree.write w.cwd place text).2 with
        | some fault => .error (.file fault)
        | none => .ok place, { w with tree := (w.tree.write w.cwd place text).1 }) := by
  have hplace : s.sandbox.resolve place = .ok place := by
    simp [Sandbox.resolve, hlive]
  refine (Attempt.outcome_bind (Attempt.outcome_ofExcept .file hplace w) _).trans ?_
  cases hwrite : w.tree.write w.cwd place text with
  | mk tree refusal =>
    cases refusal with
    | none => exact Attempt.outcome_bind (Attempt.outcome_writeText hwrite) _
    | some fault =>
      refine Attempt.outcome_bind_error ?_ _
      refine (Attempt.outcome_bind (Attempt.outcome_request (.write place text) w) _).trans ?_
      simp only [World.answer, hwrite]
      rfl

/-- The version that an append stores behind others. -/
def nextVersion (key : Text) (vs : VersionSet) (clock : Moment) (records : List Record) : Version :=
  ⟨vs.nextOrder, clock, records.map (stamp key vs.nextOrder)⟩

/-- The artifact of the next version holds it, if it can be written. -/
theorem ofArtifact_nextVersion {vs : VersionSet} {clock : Moment} {chars : List Char} (hshort : IsShort vs.nextOrder)
    (hclock : clock.IsUniversal) (hrecords : ∀ r ∈ records, r.HasShortNumbers)
    (hchars : (nextVersion key vs clock records).artifact.chars? = some chars) (now : Moment) :
    Version.ofArtifact now (Text.ofChars chars) = .ok (nextVersion key vs clock records) := by
  refine Version.ofArtifact_artifact hclock hshort (fun q hq => ?_) hchars now
  obtain ⟨r, hr, rfl⟩ := List.mem_map.mp hq
  exact ⟨⟨(hrecords r hr).blankStock, (hrecords r hr).anchor⟩, hshort⟩

/-- An append writes the artifact of the version behind those that are loaded for its key, or changes no file. -/
theorem ends_append (s : Store) (w : World) (target : Text) (records : List Record) :
    (s.append target records).Ends w
      (fun stored w' => ∃ key vs place, keyOf target = .ok key ∧ (s.load key).value w = .ok vs ∧
        stored.version = nextVersion key vs w.clock records ∧ s.artifactPath key stored.version.order = .ok place ∧
          s.sandbox.Writes w w' place stored.version.artifact stored.written)
      fun _ w' => w.SameFiles w' := by
  refine (Attempt.looks_ofExcept .key _).ends_bind (fun _ _ => .refl w) fun key hkey => ?_
  refine (s.looks_load key).ends_bind (fun _ _ => .refl w) fun vs hvs => ?_
  refine Attempt.looks_now.ends_bind (fun _ _ => .refl w) fun now hnow => ?_
  obtain rfl : w.clock = now := Except.ok.inj hnow
  refine (Attempt.looks_ofExcept .key _).ends_bind (fun _ _ => .refl w) fun place hplace => ?_
  refine (s.sandbox.ends_writeText w place _).bind fun written w' hwrites => ?_
  exact Attempt.ends_pure
    ⟨key, vs, place, Attempt.value_ofExcept_eq_ok hkey, hvs, rfl, Attempt.value_ofExcept_eq_ok hplace, hwrites⟩

/-- Why an append fails before it writes: its target is no key, the versions so far cannot be loaded, or the number of
the next one cannot be written. -/
def FailsEarly (s : Store) (w : World) (target : Text) (fault : Fault) : Prop :=
  (∃ e, keyOf target = .error e ∧ fault = .key e) ∨
    ∃ key, keyOf target = .ok key ∧ ((s.load key).outcome w = (.error fault, w) ∨
      ∃ vs e, (s.load key).outcome w = (.ok vs, w) ∧ s.artifactPath key vs.nextOrder = .error e ∧ fault = .key e)

/-- An append fails without a change, or it comes to a write of the next version. -/
theorem append_write (hlive : s.sandbox.root = none) (h : (s.append target records).outcome w = (r, w')) :
    (∃ fault, r = .error fault ∧ w' = w ∧ s.FailsEarly w target fault) ∨
      ∃ key vs place, keyOf target = .ok key ∧ (s.load key).outcome w = (.ok vs, w) ∧
        s.artifactPath key vs.nextOrder = .ok place ∧
          (r, w') = (match (w.tree.write w.cwd place (nextVersion key vs w.clock records).artifact).2 with
            | some fault => .error (.file fault)
            | none => .ok ⟨nextVersion key vs w.clock records, place⟩,
            { w with tree := (w.tree.write w.cwd place (nextVersion key vs w.clock records).artifact).1 }) := by
  rcases Attempt.bind_ofExcept_cases h with ⟨e, hkey, hr, hw⟩ | ⟨key, hkey, hload⟩
  · exact .inl ⟨_, hr, hw, .inl ⟨e, hkey, rfl⟩⟩
  rcases Attempt.bind_cases hload with ⟨fault, hload, hr⟩ | ⟨vs, w₁, hload, hclock⟩
  · obtain rfl := load_unchanged hload
    exact .inl ⟨fault, hr, rfl, .inr ⟨key, hkey, .inl hload⟩⟩
  obtain rfl := load_unchanged hload
  have hplace := (Attempt.outcome_bind (Attempt.outcome_request .now w₁) _).symm.trans hclock
  rcases Attempt.bind_ofExcept_cases hplace with ⟨e, hpath, hr, hw⟩ | ⟨place, hplace, hwrite⟩
  · exact .inl ⟨_, hr, hw, .inr ⟨key, hkey, .inr ⟨vs, e, hload, hpath, rfl⟩⟩⟩
  refine .inr ⟨key, vs, place, hkey, hload, hplace, ?_⟩
  have hwritten := outcome_writeText hlive w₁ place (nextVersion key vs w₁.clock records).artifact
  cases hrefusal : (w₁.tree.write w₁.cwd place (nextVersion key vs w₁.clock records).artifact).2 with
  | some fault =>
    rw [hrefusal] at hwritten
    exact hwrite.symm.trans (Attempt.outcome_bind_error hwritten _)
  | none =>
    rw [hrefusal] at hwritten
    exact hwrite.symm.trans (Attempt.outcome_bind hwritten _)

/-- What an append goes by: the key of its target and the names of the place for it, the versions so far and the number
behind them, which can be written. -/
structure Prepares (s : Store) (w : World) (target first key : Text) (names : List Text) (vs : VersionSet) (n : Nat) :
    Prop where
  keyed : keyOf target = .ok first
  rekeyed : keyOf first = .ok key
  placed : KeyNames key names
  loaded : (s.load first).outcome w = (.ok vs, w)
  number : vs.nextOrder = n
  short : IsShort n

/-- An append fails without a change, or it comes to a write of the next version of its target. When the write is
refused, it has made nothing but directories on the way. -/
theorem append_cases (hlive : s.sandbox.root = none) (hroot : w.tree.RootAt w.cwd s.root base)
    (hnumber : ∀ first vs, keyOf target = .ok first → (s.load first).outcome w = (.ok vs, w) →
      ∃ n : Nat, vs.nextOrder = n)
    (h : (s.append target records).outcome w = (r, w')) :
    (∃ fault, r = .error fault ∧ w' = w ∧ s.FailsEarly w target fault) ∨
      ∃ first key names vs n, s.Prepares w target first key names vs n ∧
        ((∃ tree refusal, Tree.AddsDirectories base names.dropLast w.tree tree ∧
            w.tree.write w.cwd (behind s.root (artifactNames names n)) (nextVersion first vs w.clock records).artifact =
              (tree, some refusal) ∧
            w' = { w with tree } ∧ r = .error (.file refusal)) ∨
          ∃ chars tree, (nextVersion first vs w.clock records).artifact.chars? = some chars ∧
            Tree.WritesFile w.cwd s.root base (artifactNames names n) chars w.tree tree ∧
            w' = { w with tree } ∧
            r = .ok ⟨nextVersion first vs w.clock records, behind s.root (artifactNames names n)⟩) := by
  rcases append_write hlive h with hearly | ⟨first, vs, place, hfirst, hload, hplace, hresult⟩
  · exact .inl hearly
  obtain ⟨n, hn⟩ := hnumber first vs hfirst hload
  rw [hn] at hplace
  obtain ⟨key, names, hkey, hnames, hshort, rfl⟩ := artifactPath_eq_ok hplace
  have hdrop : (artifactNames names n).dropLast = names.dropLast := by
    simp [artifactNames]
  refine .inr ⟨first, key, names, vs, n, ⟨hfirst, hkey, hnames, hload, hn, hshort⟩, ?_⟩
  rcases Tree.write_behind hroot (by simp [artifactNames]) (hnames.parentName_not_mem_artifactNames n)
      (nextVersion first vs w.clock records).artifact with
    ⟨made, fault, hadds, hwrite⟩ | ⟨chars, tree, hchars, hfile, hwrite⟩
  · rw [hwrite] at hresult
    obtain ⟨hr, hw⟩ := Prod.mk.inj hresult
    rw [hdrop] at hadds
    exact .inl ⟨made, fault, hadds, hwrite, hw, hr⟩
  · rw [hwrite] at hresult
    obtain ⟨hr, hw⟩ := Prod.mk.inj hresult
    exact .inr ⟨chars, tree, hchars, hfile, hw, hr⟩

end Store

end Regraft

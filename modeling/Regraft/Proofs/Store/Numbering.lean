import Regraft.Proofs.Store.Holdings
/-!
# Numbers of stored versions

Whatever is appended, every file in a store bears the number of the version that it holds (`Store.Numbered`). So the
versions that a load finds have different numbers (`Numbered.nodup_orders`), whichever target it looks for.
-/
namespace Regraft

open Regraft.Tree (behind namesBelow?)

theorem Tree.mem_entries_of_file {t : Tree} {here : Location} {content : Content}
    (h : t.entry? here = some (.file content)) : (here, .file content) ∈ t.entries := by
  unfold entry? at h
  split at h
  · cases h
  · exact Table.mem_of_get?_eq_some h

theorem eq_map_of_forall₂ {α β : Type} {R : α → β → Prop} {P : β → Prop} {g : β → α} {as : List α} {bs : List β}
    (h : List.Forall₂ R as bs) : (∀ a ∈ as, ∀ b, R a b → a = g b ∧ P b) → as = bs.map g ∧ ∀ b ∈ bs, P b := by
  induction h with
  | nil => exact fun _ => ⟨rfl, by simp⟩
  | cons hab _ ih =>
    intro hall
    obtain ⟨rfl, hb⟩ := hall _ List.mem_cons_self _ hab
    obtain ⟨rfl, hbs⟩ := ih fun a ha => hall a (List.mem_cons_of_mem _ ha)
    exact ⟨rfl, List.forall_mem_cons.mpr ⟨hb, hbs⟩⟩

/-- A version that is read comes from a file that holds it. -/
theorem World.eq_of_version {w : World} {p : Path} {v : Version} (h : w.version p = .ok v) :
    ∃ here chars, w.tree.locate w.cwd p = .ok here ∧ w.tree.entry? here = some (.file (.text chars)) ∧
      Version.ofArtifact w.clock (Text.ofChars chars) = .ok v := by
  unfold World.version at h
  split at h
  · rename_i chars hread
    split at h
    · rename_i u hholds
      obtain rfl := Except.ok.inj h
      unfold Tree.read at hread
      cases hlocate : w.tree.locate w.cwd p with
      | error fault => simp [hlocate, bind, Except.bind] at hread
      | ok here =>
        simp only [hlocate, bind, Except.bind] at hread
        split at hread
        · cases hread
        · cases hread
        · rename_i content hentry
          exact ⟨here, chars, rfl, (Except.ok.inj hread) ▸ hentry, hholds⟩
    · cases h
    · cases h
  · cases h

namespace Store

variable {s : Store} {base : Location} {w : World} {target : Text}

/-- A file with a name bears the number of the version that it holds. -/
def BearsNumber (names : List Text) (e : Entry) : Prop :=
  ∃ front name chars v, ∃ n : Nat, names = front ++ [artifactFile name n] ∧ e = .file (.text chars) ∧
    (∀ now, Version.ofArtifact now (Text.ofChars chars) = .ok v) ∧ v.order = n

/-- All files below the root of a store, which is at a location, bear the numbers of their versions. -/
structure Numbered (s : Store) (base : Location) (w : World) : Prop where
  root : w.tree.RootAt w.cwd s.root base
  distinct : (w.tree.keysBelow base).Nodup
  files : ∀ d ∈ w.tree.entries, d.2 ≠ .directory → ∀ names, namesBelow? base d.1 = some names → BearsNumber names d.2

namespace Numbered

/-! ## Loading -/

/-- The name of the file that a version is read from. -/
theorem eq_artifactFile (h : s.Numbered base w) {dir : List Text} (hdir : parentName ∉ dir) {name f : Text}
    (hf : artifactTarget? f = some name) {v : Version} (hv : w.version ((behind s.root dir).child f) = .ok v) :
    f = artifactFile name v.order.toNat ∧ 0 ≤ v.order := by
  obtain ⟨here, chars, hlocate, hentry, hholds⟩ := World.eq_of_version hv
  have hchild : (behind s.root dir).child f = behind s.root (dir ++ [f]) := by
    simp [behind, Path.child]
  have hparent : parentName ∉ dir ++ [f] := by
    rw [List.mem_append, List.mem_singleton, not_or]
    refine ⟨hdir, ?_⟩
    rintro rfl
    have hnone : artifactTarget? parentName = none := by decide
    rw [hnone] at hf
    cases hf
  rw [hchild] at hlocate
  obtain rfl := h.root.eq_of_locate hparent hlocate
  obtain ⟨front, other, chars', u, n, hnames, hcontent, hread, horder⟩ :=
    h.files _ (Tree.mem_entries_of_file hentry) (by simp) _ (Tree.namesBelow?_append (by simp))
  obtain rfl : chars = chars' := Content.text.inj (Entry.file.inj hcontent)
  obtain rfl : u = v := Except.ok.inj ((hread w.clock).symm.trans hholds)
  obtain rfl : f = artifactFile other n := List.singleton_inj.mp (List.append_inj' hnames rfl).2
  obtain rfl := eq_of_artifactTarget? hf
  rw [horder]
  exact ⟨rfl, Int.natCast_nonneg n⟩

theorem nodup_artifacts (h : s.Numbered base w) {p : Path} {dir : List Text}
    (hdir : w.tree.locate w.cwd p = .ok (base ++ dir)) (name : Text) : (w.artifacts p name).Nodup := by
  have hbelow : w.artifacts p name = (w.tree.keysBelow base).filterMap (artifactIn dir name) := by
    rw [artifacts_of_locate hdir, Tree.keysBelow, List.filterMap_filterMap]
    refine List.filterMap_congr fun d _ => Option.ext fun f => ?_
    rw [childHolding_eq_some, Option.bind_eq_some_iff]
    constructor
    · rintro ⟨hthere, hf⟩
      refine ⟨dir ++ [f], Tree.namesBelow?_eq_some_iff.mpr ⟨?_, by simp⟩, artifactIn_eq_some.mpr ⟨rfl, hf⟩⟩
      rw [hthere, List.append_assoc]
    · rintro ⟨names, hnames, hin⟩
      obtain ⟨rfl, hf⟩ := artifactIn_eq_some.mp hin
      exact ⟨by rw [(Tree.namesBelow?_eq_some_iff.mp hnames).1, List.append_assoc], hf⟩
  rw [hbelow]
  refine List.Nodup.filterMap (fun a b f ha hb => ?_) h.distinct
  rw [(artifactIn_eq_some.mp ha).1, (artifactIn_eq_some.mp hb).1]

/-- The versions that are found in a directory have different numbers. -/
theorem nodup_versions (h : s.Numbered base w) {dir : List Text} (hdir : parentName ∉ dir) {name : Text}
    {found : List Version} (hfound : versionsAt w (behind s.root dir) name = .ok found) :
    (found.map Version.order).Nodup ∧ ∀ v ∈ found, 0 ≤ v.order := by
  unfold versionsAt at hfound
  split at hfound
  · cases hfound
  rename_i kind hprobe
  split at hfound
  · rename_i hkind
    obtain ⟨here, hlocate, -⟩ := Tree.locate_of_probe (hkind ▸ hprobe)
    obtain rfl := h.root.eq_of_locate hdir hlocate
    -- every file is named for the number of its version, so the numbers are as different as the files
    have hnamed : ∀ f ∈ (w.artifacts (behind s.root dir) name).mergeSort noLater, ∀ v,
        w.version ((behind s.root dir).child f) = .ok v → f = artifactFile name v.order.toNat ∧ 0 ≤ v.order := by
      intro f hf v hv
      exact h.eq_artifactFile hdir (of_decide_eq_true (List.mem_filter.mp (List.mem_mergeSort.mp hf)).2) hv
    have hnodup : ((w.artifacts (behind s.root dir) name).mergeSort noLater).Nodup :=
      (List.mergeSort_perm _ _).nodup_iff.mpr (h.nodup_artifacts hlocate name)
    obtain ⟨hfiles, hnonneg⟩ := eq_map_of_forall₂ (forall₂_of_mapM hfound) hnamed
    rw [hfiles] at hnodup
    refine ⟨List.Nodup.of_map (fun n : Int => artifactFile name n.toNat) ?_, hnonneg⟩
    rwa [List.map_map]
  · obtain rfl := Except.ok.inj hfound
    exact ⟨List.nodup_nil, by simp⟩

/-- The versions that a load finds have different numbers, and there is a number for the next one. -/
theorem nodup_orders (h : s.Numbered base w) (hlive : s.sandbox.root = none) {vs : VersionSet} {w' : World}
    (hload : (s.load target).outcome w = (.ok vs, w')) :
    (vs.versions.map Version.order).Nodup ∧ ∃ n : Nat, vs.nextOrder = n := by
  obtain ⟨key, hkey⟩ := exists_key_of_load hload
  obtain ⟨names, hnames⟩ := exists_keyNames hkey
  rw [outcome_load hlive hkey, hnames.directory_eq s, hnames.name_eq] at hload
  cases hfound : versionsAt w (behind s.root names.dropLast) (names.getLastD []) with
  | error fault =>
    rw [hfound] at hload
    cases (Prod.mk.inj hload).1
  | ok found =>
    rw [hfound] at hload
    obtain rfl : VersionSet.build key found = vs := Except.ok.inj (Prod.mk.inj hload).1
    obtain ⟨hnodup, hnonneg⟩ := h.nodup_versions (fun hmem => hnames.noParent (List.dropLast_subset _ hmem)) hfound
    refine ⟨((VersionSet.perm_build key found).map _).nodup_iff.mpr hnodup, ?_⟩
    unfold VersionSet.nextOrder
    split
    · rename_i v hnewest
      have hv : v ∈ found := VersionSet.mem_build.mp (List.mem_of_getLast? hnewest)
      exact ⟨(v.order + 1).toNat, (Int.toNat_of_nonneg (by have := hnonneg v hv; omega)).symm⟩
    · exact ⟨1, rfl⟩

/-! ## Appending -/

theorem addDirectories (h : s.Numbered base w) {dir : List Text} {tree : Tree}
    (hadds : Tree.AddsDirectories base dir w.tree tree) : s.Numbered base { w with tree } := by
  obtain ⟨ds, hentries, hds⟩ := hadds.added
  refine ⟨h.root.mono hadds.larger, hadds.distinct h.distinct, fun d hd hkind => ?_⟩
  rw [hentries] at hd
  rcases List.mem_append.mp hd with hd | hd
  · exact h.files d hd hkind
  · exact absurd (hds d hd).1 hkind

/-- A file with the number of the version that it holds may be put anywhere below the root. -/
theorem placeFile (h : s.Numbered base w) {names : List Text} {chars : List Char}
    (hentry : w.tree.entry? (base ++ names) ≠ some .directory)
    (hbears : BearsNumber names (.file (.text chars))) :
    s.Numbered base { w with tree := w.tree.place (base ++ names) (.file (.text chars)) } := by
  refine ⟨?_, Tree.nodup_keysBelow_place h.distinct _ _, fun d hd hkind others hothers => ?_⟩
  · refine h.root.imp id fun ⟨hlocate, hdirectory⟩ => ⟨?_, ?_⟩
    · obtain ⟨hfit, hshort, hfollow⟩ := Tree.locate_eq_ok.mp hlocate
      exact Tree.locate_eq_ok.mpr ⟨hfit, hshort, Tree.follow_place hentry _ hfollow⟩
    · have hother : base ≠ base ++ names := by
        intro heq
        rw [← heq] at hentry
        exact hentry hdirectory
      rw [Tree.place_entry_of_ne hother]
      exact hdirectory
  · rcases Table.mem_put hd with rfl | hd
    · obtain rfl := List.append_cancel_left (Tree.namesBelow?_eq_some_iff.mp hothers).1
      exact hbears
    · exact h.files d hd hkind others hothers

/-- Appending keeps the numbers of all files. -/
theorem append (h : s.Numbered base w) (hlive : s.sandbox.root = none) {records : List Record}
    (hclock : w.clock.IsUniversal) (hrecords : ∀ r ∈ records, r.HasShortNumbers) {result : Except Fault Stored}
    {w' : World} (hout : (s.append target records).outcome w = (result, w')) : s.Numbered base w' := by
  have hnumber : ∀ first vs, keyOf target = .ok first → (s.load first).outcome w = (.ok vs, w) →
      ∃ n : Nat, vs.nextOrder = n := fun _ _ _ hload => (h.nodup_orders hlive hload).2
  rcases append_cases hlive h.root hnumber hout with
    ⟨fault, -, rfl, -⟩ | ⟨first, key, names, vs, n, hnext, ⟨tree, refusal, hadds, -, rfl, -⟩ |
      ⟨chars, tree, hchars, hfile, rfl, -⟩⟩
  · exact h
  · exact h.addDirectories hadds
  · obtain ⟨made, hadds, -, hentry, rfl⟩ := hfile
    refine (h.addDirectories hadds).placeFile hentry ?_
    exact ⟨names.dropLast, names.getLastD [], chars, _, n, rfl, rfl,
      ofArtifact_nextVersion (hnext.number.symm ▸ hnext.short) hclock hrecords hchars, hnext.number⟩

end Numbered

end Store

end Regraft

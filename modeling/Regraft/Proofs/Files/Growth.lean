import Regraft.Proofs.Files.Tree
import Regraft.Proofs.Table
import Mathlib.Data.List.Induction
/-!
# Growing trees

What a write of a new file does to a tree: it adds directories on the way to the file and then the file, and leaves
all there was as it was (`Tree.Extends`, `Tree.AddsDirectories`). The way starts from a directory that the tree is
grown in. A path without steps up that goes there leads to where its names say, in every tree that the first one grows
into (`Tree.RootAt`).
-/
namespace Regraft

/-! ## Locations that have nothing in common -/

/-- Neither of two locations is on the way to the other one. -/
def Unrelated (a b : Location) : Prop := ¬a <+: b ∧ ¬b <+: a

section
variable {a b c x y : Location}

theorem Unrelated.symm (h : Unrelated a b) : Unrelated b a := ⟨h.2, h.1⟩

theorem Unrelated.below (h : Unrelated a b) (hx : a <+: x) (hy : b <+: y) : Unrelated x y :=
  ⟨fun hxy => (List.prefix_or_prefix_of_prefix (hx.trans hxy) hy).elim h.1 h.2,
    fun hyx => (List.prefix_or_prefix_of_prefix hx (hy.trans hyx)).elim h.1 h.2⟩

theorem unrelated_append : Unrelated (c ++ a) (c ++ b) ↔ Unrelated a b := by
  simp only [Unrelated, List.prefix_append_right_inj]

end

end Regraft

namespace Regraft.Tree

variable {t t' t'' : Tree} {cwd base here there : Location} {p : Path}

/-! ## Locations below others -/

theorem namesBelow?_eq_some_iff {names : List Text} :
    namesBelow? here there = some names ↔ there = here ++ names ∧ names ≠ [] := by
  induction here generalizing there with
  | nil =>
    cases there with
    | nil => simp only [namesBelow?, List.nil_append]; aesop
    | cons name rest => simp only [namesBelow?, List.nil_append]; aesop
  | cons name here ih =>
    cases there with
    | nil => simp [namesBelow?]
    | cons other rest =>
      rw [namesBelow?]
      by_cases heq : name = other
      · simp [heq, ih]
      · simp [heq, Ne.symm heq]

theorem namesBelow?_append {names : List Text} (h : names ≠ []) : namesBelow? here (here ++ names) = some names :=
  namesBelow?_eq_some_iff.mpr ⟨rfl, h⟩

/-! ## Trees that hold another one -/

/-- All that is in the first tree is in the second one as well. -/
def Extends (t t' : Tree) : Prop := ∀ here e, t.entry? here = some e → t'.entry? here = some e

theorem Extends.refl (t : Tree) : t.Extends t := fun _ _ h => h

theorem Extends.trans (h : t.Extends t') (h' : t'.Extends t'') : t.Extends t'' := fun _ _ he => h' _ _ (h _ _ he)

/-- Where a path leads, it leads in a larger tree too. -/
theorem Extends.locate (h : t.Extends t') (hl : t.locate cwd p = .ok here) : t'.locate cwd p = .ok here := by
  obtain ⟨hfit, hshort, hfollow⟩ := locate_eq_ok.mp hl
  exact locate_eq_ok.mpr ⟨hfit, hshort, follow_of_directories (fun dir => h dir _) _ hfollow⟩

/-- Something put where nothing was stands behind the other entries. -/
theorem entries_place_of_none (h : t.entry? here = none) (e : Entry) :
    (t.place here e).entries = t.entries ++ [(here, e)] := by
  refine Table.put_of_not_mem (Table.get?_eq_none_iff.mp ?_) e
  unfold entry? at h
  split at h
  · cases h
  · exact h

theorem extends_place_of_none (h : t.entry? here = none) (e : Entry) : t.Extends (t.place here e) := by
  intro other f hf
  have hne : other ≠ here := by
    rintro rfl
    rw [h] at hf
    cases hf
  rw [place_entry_of_ne hne, hf]

/-- A directory that is seen at the end of a path is where the path leads. -/
theorem locate_of_probe (h : t.probe cwd p = .ok (some .directory)) :
    ∃ here, t.locate cwd p = .ok here ∧ t.entry? here = some .directory := by
  unfold probe at h
  split at h
  · cases h
  · cases h
  · rename_i here hlocate
    refine ⟨here, hlocate, ?_⟩
    obtain ⟨e, he, hkind⟩ := Option.map_eq_some_iff.mp (Except.ok.inj h)
    cases e with
    | file content => cases hkind
    | directory => exact he

/-! ## Names without steps up -/

/-- Names without steps up lead to where they say. -/
theorem eq_append_of_follow {path : Text} {names : List Text} (hparent : parentName ∉ names) :
    ∀ {start : Location}, t.follow path start names = .ok here → here = start ++ names := by
  induction names with
  | nil =>
    intro start h
    rw [follow] at h
    simpa using (Except.ok.inj h).symm
  | cons name names ih =>
    intro start h
    obtain ⟨hname, hnames⟩ := not_or.mp (mt List.mem_cons.mpr hparent)
    obtain ⟨-, -, hrest⟩ := follow_cons_eq_ok.mp h
    rw [if_neg (Ne.symm hname)] at hrest
    simpa using ih hnames hrest

/-! ## The root of what grows -/

/-- A path leads to a location, as it is written or because there is a directory. -/
def RootAt (t : Tree) (cwd : Location) (root : Path) (base : Location) : Prop :=
  parentName ∉ root.names ∧ base = (if root.isAbsolute then [] else cwd) ++ root.names ∨
    t.locate cwd root = .ok base ∧ t.entry? base = some .directory

/-- A path behind the root. -/
def behind (root : Path) (names : List Text) : Path := ⟨root.root, root.names ++ names⟩

variable {root : Path}

theorem RootAt.mono (h : t.RootAt cwd root base) (hext : t.Extends t') : t'.RootAt cwd root base :=
  h.imp id fun ⟨hlocate, hentry⟩ => ⟨hext.locate hlocate, hext _ _ hentry⟩

/-- A path behind the root leads to where its names say. -/
theorem RootAt.eq_of_locate (h : t.RootAt cwd root base) {names : List Text} (hparent : parentName ∉ names)
    (hlocate : t.locate cwd (behind root names) = .ok here) : here = base ++ names := by
  obtain ⟨-, -, hfollow⟩ := locate_eq_ok.mp hlocate
  obtain ⟨mid, hroot, hnames⟩ := follow_append hfollow
  obtain rfl := eq_append_of_follow hparent hnames
  rcases h with ⟨hplain, rfl⟩ | ⟨hbase, -⟩
  · exact congrArg (· ++ names) (eq_append_of_follow hplain hroot)
  · obtain ⟨-, -, hthere⟩ := locate_eq_ok.mp hbase
    exact congrArg (· ++ names) (Except.ok.inj ((follow_eq_ok _ hroot).symm.trans hthere))

/-- Where the first names of a root lead to nothing, they lead on the way to it. -/
theorem RootAt.prefix_of_front (h : t.RootAt cwd root base) {front : List Text} (hfront : front <+: root.names)
    {path : Text} (hfollow : t.follow path (if root.isAbsolute then [] else cwd) front = .ok here)
    (hnone : t.entry? here = none) : here <+: base := by
  rcases h with ⟨hplain, rfl⟩ | ⟨hbase, hentry⟩
  · rw [eq_append_of_follow (fun hmem => hplain (hfront.subset hmem)) hfollow]
    exact (List.prefix_append_right_inj _).mpr hfront
  · obtain ⟨back, hback⟩ := hfront
    obtain ⟨-, -, hroot⟩ := locate_eq_ok.mp hbase
    rw [← hback] at hroot
    obtain ⟨mid, hmid, hlast⟩ := follow_append hroot
    obtain rfl := Except.ok.inj ((follow_eq_ok _ hmid).symm.trans hfollow)
    have hdirectory : t.entry? mid = some .directory := by
      cases back with
      | nil => rwa [Except.ok.inj hlast]
      | cons name back => exact (follow_cons_eq_ok.mp hlast).1
    rw [hnone] at hdirectory
    cases hdirectory

/-- Where the first names of a path behind a root lead to nothing, they lead on the way to its end. -/
theorem RootAt.prefix_of_locate (h : t.RootAt cwd root base) {front names : List Text} (hparent : parentName ∉ names)
    (hfront : front <+: root.names ++ names) (hlocate : t.locate cwd ⟨root.root, front⟩ = .ok here)
    (hnone : t.entry? here = none) : here <+: base ++ names := by
  rcases List.prefix_or_prefix_of_prefix hfront (List.prefix_append root.names names) with hshort | ⟨rest, hlong⟩
  · obtain ⟨-, -, hfollow⟩ := locate_eq_ok.mp hlocate
    exact (h.prefix_of_front hshort hfollow hnone).trans (List.prefix_append _ _)
  · subst hlong
    have hrest := (List.prefix_append_right_inj _).mp hfront
    rw [h.eq_of_locate (fun hmem => hparent (hrest.subset hmem)) hlocate]
    exact (List.prefix_append_right_inj _).mpr hrest

/-- A path that leads on behind a root leads through a directory there. -/
theorem locate_of_behind {names : List Text} (hne : names ≠ []) (h : t.locate cwd (behind root names) = .ok here) :
    ∃ there, t.locate cwd root = .ok there ∧ t.entry? there = some .directory := by
  induction names using List.reverseRecOn generalizing here with
  | nil => exact absurd rfl hne
  | append_singleton front name ih =>
    obtain ⟨dir, hdir, hentry⟩ := locate_parent h (by simp [behind])
    have hparent : (behind root (front ++ [name])).parent = behind root front := by
      simp [behind, Path.parent, ← List.append_assoc]
    rw [hparent] at hdir
    by_cases hfront : front = []
    · subst hfront
      have hroot : behind root [] = root := by
        simp [behind]
      exact ⟨dir, hroot ▸ hdir, hentry⟩
    · exact ih hfront hdir

/-! ## Directories on the way -/

/-- A directory is made where a path leads, if there is none. -/
theorem makeDir_eq_ok : t.makeDir cwd p = .ok t' ↔ ∃ here, t.locate cwd p = .ok here ∧
    (t.entry? here = some .directory ∧ t' = t ∨ t.entry? here = none ∧ t' = t.place here .directory) := by
  unfold makeDir
  cases hlocate : t.locate cwd p with
  | error fault => simp [bind, Except.bind]
  | ok here =>
    simp only [bind, Except.bind, pure, Except.pure, throw, throwThe, MonadExceptOf.throw, Except.ok.injEq,
      exists_eq_left']
    cases hentry : t.entry? here with
    | none => simp [eq_comm]
    | some e => cases e <;> simp [eq_comm]

/-- What every directory made on the way keeps is kept by making them all. -/
theorem makeDirsFrom_induct {P : Tree → Prop} {start : PathRoot} {names : List Text}
    (hstep : ∀ front, front <+: names.reverse → ∀ t t', P t → t.makeDir cwd ⟨start, front⟩ = .ok t' → P t') :
    ∀ t, P t → P (makeDirsFrom cwd start names t).1 := by
  induction names with
  | nil =>
    intro t ht
    rw [makeDirsFrom]
    cases hmake : t.makeDir cwd ⟨start, []⟩ with
    | ok t' => exact hstep [] List.prefix_rfl t t' ht hmake
    | error fault => exact ht
  | cons name names ih =>
    intro t ht
    have hwhole := hstep (name :: names).reverse List.prefix_rfl
    have hparents := ih (fun front hfront => hstep front (by
      rw [List.reverse_cons]
      exact hfront.trans (List.prefix_append _ _))) t ht
    rw [makeDirsFrom]
    cases hmake : t.makeDir cwd ⟨start, (name :: names).reverse⟩ with
    | ok t' => exact hwhole t t' ht hmake
    | error fault =>
      cases fault with
      | notFound path =>
        simp only
        cases hmade : makeDirsFrom cwd start names t with
        | mk made result =>
          rw [hmade] at hparents
          cases result with
          | some fault => exact hparents
          | none =>
            simp only
            cases hlast : made.makeDir cwd ⟨start, (name :: names).reverse⟩ with
            | ok t' => exact hwhole made t' hparents hlast
            | error fault => exact hparents
      | _ => exact ht

/-- The names that lead from a location to what is below it, in the order of the entries. -/
def keysBelow (base : Location) (t : Tree) : List (List Text) := t.entries.filterMap fun d => namesBelow? base d.1

/-- Nothing but directories is added, each where nothing was, and those below a location are all on one way. -/
structure AddsDirectories (base : Location) (dir : List Text) (t t' : Tree) : Prop where
  larger : t.Extends t'
  added : ∃ ds, t'.entries = t.entries ++ ds ∧
    ∀ d ∈ ds, d.2 = .directory ∧ t.entry? d.1 = none ∧ ∀ names, namesBelow? base d.1 = some names → names <+: dir
  distinct : (t.keysBelow base).Nodup → (t'.keysBelow base).Nodup

variable {dir : List Text}

theorem AddsDirectories.refl (base : Location) (dir : List Text) (t : Tree) : AddsDirectories base dir t t :=
  ⟨.refl t, ⟨[], by simp⟩, id⟩

/-- A location that gets an entry stays apart from the others. -/
theorem nodup_keysBelow_place (h : (t.keysBelow base).Nodup) (here : Location) (e : Entry) :
    ((t.place here e).keysBelow base).Nodup := by
  have hkeys : ∀ u : Tree, u.keysBelow base = (u.entries.map Prod.fst).filterMap (namesBelow? base) := fun u =>
    (List.filterMap_map ..).symm
  have hput : (t.place here e).entries.map Prod.fst = _ := Table.map_fst_put here e t.entries
  rw [hkeys, hput]
  split
  · rwa [← hkeys]
  · rename_i hnew
    rw [List.filterMap_append, ← hkeys]
    cases hbelow : namesBelow? base here with
    | none => simpa [hbelow] using h
    | some names =>
      have hsingle : [here].filterMap (namesBelow? base) = [names] := by
        simp [hbelow]
      rw [hsingle]
      refine List.nodup_append.mpr ⟨h, List.nodup_singleton names, fun other hother _ hmem heq => ?_⟩
      rw [List.mem_singleton.mp hmem] at heq
      subst heq
      obtain ⟨d, hd, hthere⟩ := List.mem_filterMap.mp hother
      have hhere : d.1 = here := by
        rw [(namesBelow?_eq_some_iff.mp hthere).1, (namesBelow?_eq_some_iff.mp hbelow).1]
      exact hnew (hhere ▸ List.mem_map_of_mem hd)

theorem AddsDirectories.place (h : AddsDirectories base dir t t') (hnone : t'.entry? here = none)
    (honWay : ∀ names, namesBelow? base here = some names → names <+: dir) :
    AddsDirectories base dir t (t'.place here .directory) := by
  obtain ⟨ds, hentries, hds⟩ := h.added
  have hnew : t.entry? here = none := by
    cases hentry : t.entry? here with
    | none => rfl
    | some e => rw [h.larger _ _ hentry] at hnone; cases hnone
  refine ⟨h.larger.trans (extends_place_of_none hnone _), ⟨ds ++ [(here, .directory)], ?_, ?_⟩, fun hd => ?_⟩
  · rw [entries_place_of_none hnone, hentries, List.append_assoc]
  · intro d hd
    rcases List.mem_append.mp hd with hd | hd
    · exact hds d hd
    · rw [List.mem_singleton.mp hd]
      exact ⟨rfl, hnew, honWay⟩
  · exact nodup_keysBelow_place (h.distinct hd) _ _

/-- Making the directories on the way behind a root adds directories on that way. -/
theorem addsDirectories_makeDirs (h : t.RootAt cwd root base) (hparent : parentName ∉ dir) :
    AddsDirectories base dir t (t.makeDirs cwd (behind root dir)).1 := by
  refine makeDirsFrom_induct (P := AddsDirectories base dir t) ?_ t (.refl base dir t)
  intro front hfront s s' hs hmake
  rw [List.reverse_reverse] at hfront
  have hroot := h.mono hs.larger
  obtain ⟨here, hlocate, ⟨-, rfl⟩ | ⟨hnone, rfl⟩⟩ := makeDir_eq_ok.mp hmake
  · exact hs
  · refine hs.place hnone fun names hnames => ?_
    obtain ⟨rfl, -⟩ := namesBelow?_eq_some_iff.mp hnames
    exact (List.prefix_append_right_inj _).mp (hroot.prefix_of_locate hparent hfront hlocate hnone)

/-! ## Writing -/

/-- A text is put into the file where a path leads, if the path has room and a last name, and no directory is there. -/
theorem replaceFile_eq_ok {text : Text} : t.replaceFile cwd p text = .ok t' ↔ ∃ here chars,
    t.locate cwd p = .ok here ∧ text.chars? = some chars ∧ t.entry? here ≠ some .directory ∧
      t' = t.place here (.file (.text chars)) ∧ ¬LacksRoom cwd p ∧ p.names ≠ [] ∧ p.name ≠ parentName := by
  unfold replaceFile
  cases hlocate : t.locate cwd p with
  | error fault => simp [bind, Except.bind]
  | ok here =>
    cases hchars : text.chars? with
    | none => simp [bind, Except.bind, throw, throwThe, MonadExceptOf.throw, ite_eq_iff]
    | some chars =>
      simp only [bind, Except.bind, throw, throwThe, MonadExceptOf.throw, pure, Except.pure]
      by_cases hroom : LacksRoom cwd p
      · simp [hroom]
      · by_cases hname : p.names = [] ∨ p.name = parentName
        · simp only [hroom, hname, if_true, if_false, reduceCtorEq, false_iff]
          rintro ⟨-, -, -, -, -, -, -, hne, hlast⟩
          exact hname.elim hne hlast
        · obtain ⟨hne, hlast⟩ := not_or.mp hname
          by_cases hdir : t.entry? here = some .directory
          · simp [hroom, hname, hdir]
          · rw [if_neg hroom, if_neg hname, if_neg hdir]
            constructor
            · intro h
              exact ⟨here, chars, rfl, rfl, hdir, (Except.ok.inj h).symm, hroom, hne, hlast⟩
            · rintro ⟨_, _, hhere, hcs, -, rfl, -⟩
              rw [Except.ok.inj hhere, Option.some.inj hcs]

/-- Writing makes the directories on the way; when it is done, the text is in the file at the end of the path. -/
theorem write_cases (t : Tree) (cwd : Location) (p : Path) (text : Text) :
    (∃ fault, t.write cwd p text = ((t.makeDirs cwd p.parent).1, some fault)) ∨
      ∃ here chars, (t.makeDirs cwd p.parent).1.locate cwd p = .ok here ∧ text.chars? = some chars ∧
        entry? (t.makeDirs cwd p.parent).1 here ≠ some .directory ∧
          t.write cwd p text = ((t.makeDirs cwd p.parent).1.place here (.file (.text chars)), none) := by
  unfold write
  cases hmake : t.makeDirs cwd p.parent with
  | mk made result =>
    cases result with
    | some fault => exact .inl ⟨fault, rfl⟩
    | none =>
      cases hreplace : made.replaceFile cwd p text with
      | error fault => exact .inl ⟨fault, by simp only [hreplace]⟩
      | ok t' =>
        obtain ⟨here, chars, hlocate, hchars, hentry, rfl, -⟩ := replaceFile_eq_ok.mp hreplace
        exact .inr ⟨here, chars, hlocate, hchars, hentry, by simp only [hreplace]⟩

/-- A text is written to a file behind a root, with directories on the way to it. -/
def WritesFile (cwd : Location) (root : Path) (base : Location) (names : List Text) (chars : List Char)
    (t t' : Tree) : Prop :=
  ∃ made, AddsDirectories base names.dropLast t made ∧ made.locate cwd (behind root names) = .ok (base ++ names) ∧
    made.entry? (base ++ names) ≠ some .directory ∧ t' = made.place (base ++ names) (.file (.text chars))

/-- A write behind a root stops on the way, or it is done. -/
theorem write_behind (h : t.RootAt cwd root base) {names : List Text} (hne : names ≠ []) (hparent : parentName ∉ names)
    (text : Text) :
    (∃ made fault, AddsDirectories base names.dropLast t made ∧
        t.write cwd (behind root names) text = (made, some fault)) ∨
      ∃ chars t', text.chars? = some chars ∧ WritesFile cwd root base names chars t t' ∧
        t.write cwd (behind root names) text = (t', none) := by
  have hdirectory : (behind root names).parent = behind root names.dropLast := by
    simp [behind, Path.parent, List.dropLast_append_of_ne_nil hne]
  have hadds := addsDirectories_makeDirs h fun hmem => hparent (List.dropLast_subset names hmem)
  rcases write_cases t cwd (behind root names) text with ⟨fault, hwrite⟩ | ⟨here, chars, hlocate, hchars, hentry, hwrite⟩
  · rw [hdirectory] at hwrite
    exact .inl ⟨_, fault, hadds, hwrite⟩
  · rw [hdirectory] at hlocate hentry hwrite
    obtain rfl := (h.mono hadds.larger).eq_of_locate hparent hlocate
    exact .inr ⟨chars, _, hchars, ⟨_, hadds, hlocate, hentry, rfl⟩, hwrite⟩

/-- All that a write behind a root adds or changes stands on the way to the file. -/
theorem onWay_of_write (h : t.RootAt cwd root base) {names : List Text} (hne : names ≠ []) (hparent : parentName ∉ names)
    (text : Text) : ∀ d ∈ (t.write cwd (behind root names) text).1.entries, d ∈ t.entries ∨ d.1 <+: base ++ names := by
  have hdirectory : (behind root names).parent = behind root names.dropLast := by
    simp [behind, Path.parent, List.dropLast_append_of_ne_nil hne]
  have hdirs : parentName ∉ names.dropLast := fun hmem => hparent (List.dropLast_subset names hmem)
  have hmade : t.Extends (t.makeDirs cwd (behind root names.dropLast)).1 ∧
      ∀ d ∈ (t.makeDirs cwd (behind root names.dropLast)).1.entries, d ∈ t.entries ∨ d.1 <+: base ++ names := by
    refine makeDirsFrom_induct (P := fun s => t.Extends s ∧ ∀ d ∈ s.entries, d ∈ t.entries ∨ d.1 <+: base ++ names) ?_ t
      ⟨.refl t, fun d hd => .inl hd⟩
    rintro front hfront s s' ⟨hlarger, hs⟩ hmake
    rw [List.reverse_reverse] at hfront
    obtain ⟨here, hlocate, ⟨-, rfl⟩ | ⟨hnone, rfl⟩⟩ := makeDir_eq_ok.mp hmake
    · exact ⟨hlarger, hs⟩
    · refine ⟨hlarger.trans (extends_place_of_none hnone _), fun d hd => ?_⟩
      rcases Table.mem_put hd with rfl | hd
      · have honWay := (h.mono hlarger).prefix_of_locate hdirs hfront hlocate hnone
        exact .inr (honWay.trans ((List.prefix_append_right_inj _).mpr (List.dropLast_prefix names)))
      · exact hs d hd
  rcases write_cases t cwd (behind root names) text with ⟨fault, hwrite⟩ | ⟨here, chars, hlocate, -, -, hwrite⟩
  · rw [hwrite, hdirectory]
    exact hmade.2
  · rw [hdirectory] at hlocate hwrite
    obtain rfl := (h.mono hmade.1).eq_of_locate hparent hlocate
    rw [hwrite]
    intro d hd
    rcases Table.mem_put hd with rfl | hd
    · exact .inr List.prefix_rfl
    · exact hmade.2 d hd

end Regraft.Tree

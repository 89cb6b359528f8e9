import Regraft.Proofs.Files.Standing
/-!
# What a write leaves behind

A write to a place in a directory makes the directories that are missing on the way, and puts a file there: it leaves
its marks on a tree (`Tree.Written`). Which marks it leaves, and what it answers, depends only on the files that are in
its way. So trees with files in the same places answer a write alike and are marked alike (`Tree.writesAlike`).

* `Tree.makeDirs_of_leads`: directories are made where no file is on the way;
* `Tree.Written.entry_of_not_prefix`, `Tree.Written.file?_of_ne`: what a write leaves as it was;
* `Tree.Written.entry_congr`, `Tree.Written.file?_congr`: what is still the same in trees that are marked alike.
-/
namespace Regraft

namespace Tree

variable {t t' u w : Tree} {cwd here dir place : Location} {p : Path} {path name text : Text} {names : List Text}
  {root : PathRoot}

/-! ## Making directories -/

theorem makeDirs_of_error {fault : FileFault} (h : t.makeDir cwd p = .error fault)
    (hfault : ∀ path, fault ≠ .notFound path) : t.makeDirs cwd p = (t, some fault) := by
  obtain ⟨root, names⟩ := p
  unfold makeDirs
  cases hnames : names.reverse with
  | nil =>
    obtain rfl : names = [] := List.reverse_eq_nil_iff.mp hnames
    rw [makeDirsFrom, h]
  | cons name rest =>
    have hback : (name :: rest).reverse = names := by rw [← hnames, List.reverse_reverse]
    simp only [makeDirsFrom, hback, h]

theorem makeDirs_of_refusal {fault : FileFault} (h : p.refusal? = some fault) :
    t.makeDirs cwd p = (t, some fault) := by
  refine makeDirs_of_error ?_ fun path heq => p.refusal?_ne_notFound path (heq ▸ h)
  rw [makeDir, locate_of_refusal h]
  rfl

/-- A file on the way to a directory keeps it from being made. -/
theorem makeDirs_of_not_way (h : t.Leads cwd p.root p.names here) (hclosed : t.Closed) (hpath : p.refusal? = none)
    (hway : ¬t.Way here.dropLast) : t.makeDirs cwd p = (t, some (.notADirectory p.toText)) := by
  refine makeDirs_of_error ?_ (by simp)
  rw [makeDir, locate_eq_follow hpath, h.follow_of_not_way hclosed _ hway]
  rfl

/-- So does a file in its place. -/
theorem makeDirs_of_file (h : t.Leads cwd p.root p.names here) (hclosed : t.Closed) (hpath : p.refusal? = none)
    {content : Content} (hfile : t.entry? here = some (.file content)) :
    t.makeDirs cwd p = (t, some (.alreadyExists p.toText)) := by
  refine makeDirs_of_error ?_ (by simp)
  rw [makeDir, locate_eq_follow hpath,
    h.follow hclosed _ (hclosed.dropLast (by rw [hfile]; exact Option.some_ne_none _))]
  simp only [bind, Except.bind, hfile]
  rfl

theorem Made.keepsDirectories (h : t.Made t' here) : t.KeepsDirectories t' := fun there hdir => by
  rw [h, hdir, ite_self]

theorem Closed.made (h : t.Closed) (hdir : t.entry? here = some .directory) : t.Made t here := fun there => by
  split
  · rename_i hpre
    exact h.directory_of_prefix hpre hdir
  · rfl

theorem makeDir_child {p : Path} (h : t.Leads cwd p.root p.names dir) (hclosed : t.Closed)
    (hdir : t.entry? dir = some .directory) (hplain : name ≠ parentName) (hshort : name.bytes.length ≤ longestName)
    (hpath : (p.child name).refusal? = none) (hway : t.Way (dir ++ [name])) :
    ∃ t', t.makeDir cwd (p.child name) = .ok t' ∧ t.Made t' (dir ++ [name]) := by
  have hlocate : t.locate cwd (p.child name) = .ok (dir ++ [name]) := by
    rw [locate_child h hclosed hdir hplain, hpath]
    exact if_neg (Nat.not_lt.mpr hshort)
  obtain ⟨t', hmake⟩ : ∃ t', t.makeDir cwd (p.child name) = .ok t' := by
    rcases hway _ List.prefix_rfl with hnone | hentry
    · exact ⟨_, makeDir_eq_ok.mpr ⟨_, hlocate, .inr ⟨hnone, rfl⟩⟩⟩
    · exact ⟨_, makeDir_eq_ok.mpr ⟨_, hlocate, .inl ⟨hentry, rfl⟩⟩⟩
  exact ⟨t', hmake, made_of_locate hclosed hlocate (by rwa [List.dropLast_concat]) hmake⟩

/-- Where no file is on the way, the directories are made that are missing. -/
theorem makeDirs_of_leads (h : t.Leads cwd root names here) (hclosed : t.Closed)
    (hpath : Path.refusal? ⟨root, names⟩ = none) (hway : t.Way here) :
    ∃ t', t.makeDirs cwd ⟨root, names⟩ = (t', none) ∧ t.Made t' here := by
  induction h with
  | @start names here follow directory =>
    have hlocate : t.locate cwd ⟨root, names⟩ = .ok here :=
      (locate_eq_follow hpath).trans (follow_eq_ok _ follow)
    exact ⟨t, makeDirs_of_directory hlocate directory, hclosed.made directory⟩
  | @child names here name front plain short ih =>
    have hparent : Path.parent ⟨root, names ++ [name]⟩ = ⟨root, names⟩ := by simp [Path.parent]
    have hfront := hway.front (List.prefix_append here [name])
    have hback : (name :: names.reverse).reverse = names ++ [name] := by simp
    rw [makeDirs]
    simp only [List.reverse_append, List.reverse_singleton, List.singleton_append, makeDirsFrom, hback]
    rcases hfront here List.prefix_rfl with hnone | hdir
    · -- The system says what is missing first; only then are the directories in front made.
      have hmissing : t.makeDir cwd ⟨root, names ++ [name]⟩ =
          .error (.notFound (Path.toText ⟨root, names ++ [name]⟩)) := by
        have hlost := (Leads.child front plain short).follow_of_way hclosed (Path.toText ⟨root, names ++ [name]⟩)
          (by rwa [List.dropLast_concat]) (by rwa [List.dropLast_concat])
        rw [makeDir, locate_eq_follow hpath, hlost]
        rfl
      obtain ⟨t₁, hmade, hentries⟩ := ih (hparent ▸ Path.refusal?_parent hpath) hfront
      have hmade : makeDirsFrom cwd root names.reverse t = (t₁, none) := hmade
      have hway₁ : t₁.Way (here ++ [name]) := fun other hother => by
        rw [hentries]
        split
        · exact .inr rfl
        · exact hway other hother
      obtain ⟨t', hmake, hmade'⟩ := makeDir_child (p := ⟨root, names⟩) (front.mono hentries.keepsDirectories)
        (hentries.closed hclosed) (by rw [hentries, if_pos List.prefix_rfl]) plain short hpath hway₁
      have hmake : t₁.makeDir cwd ⟨root, names ++ [name]⟩ = .ok t' := hmake
      exact ⟨t', by simp only [hmissing, hmade, hmake], hentries.trans hmade' (List.prefix_append here [name])⟩
    · obtain ⟨t', hmake, hmade⟩ := makeDir_child (p := ⟨root, names⟩) front hclosed hdir plain short hpath hway
      have hmake : t.makeDir cwd ⟨root, names ++ [name]⟩ = .ok t' := hmake
      exact ⟨t', by simp only [hmake], hmade⟩

/-! ## Writing -/

/-- What is in the file at a location, if there is one. -/
def file? (t : Tree) (here : Location) : Option Content :=
  match t.entry? here with
  | some (.file content) => some content
  | _ => none

theorem file?_eq_none : t.file? here = none ↔ t.entry? here = none ∨ t.entry? here = some .directory := by
  unfold file?
  cases t.entry? here with
  | none => simp
  | some e => cases e <;> simp

theorem file?_eq_some {content : Content} : t.file? here = some content ↔ t.entry? here = some (.file content) := by
  unfold file?
  cases t.entry? here with
  | none => simp
  | some e => cases e <;> simp

theorem kind_eq_file_iff : (t.entry? here).map Entry.kind = some .file ↔ t.file? here ≠ none := by
  unfold file?
  cases t.entry? here with
  | none => simp
  | some e => cases e <;> simp [Entry.kind]

theorem file?_of_directory (h : t.entry? here = some .directory) : t.file? here = none := file?_eq_none.mpr (.inr h)

theorem way_iff_file? : t.Way here ↔ ∀ front, front <+: here → t.file? front = none := by
  simp only [Way, file?_eq_none]

/-- Everything stands in a directory, and nothing is listed twice. -/
structure Sound (t : Tree) : Prop where
  closed : t.Closed
  distinct : (t.entries.map Prod.fst).Nodup

/-- A write to a place has left its marks on a tree: directories on the way to the place, where no file is, and a file
at the place, where no directory is. -/
structure Written (place : Location) (marks : Location → Option Entry) (t t' : Tree) : Prop where
  entry : ∀ here, t'.entry? here = (marks here).or (t.entry? here)
  marked : ∀ here e, marks here = some e → here <+: place.dropLast ∧ e = .directory ∧ t.file? here = none ∨
    here = place ∧ (∃ content, e = .file content) ∧ t.entry? here ≠ some .directory
  sound : t'.Sound

theorem distinct_makeDirs (h : (t.entries.map Prod.fst).Nodup) (cwd : Location) (p : Path) :
    ((t.makeDirs cwd p).1.entries.map Prod.fst).Nodup := by
  refine makeDirsFrom_induct (P := fun t => (t.entries.map Prod.fst).Nodup) (fun front _ s s' hs hmake => ?_) t h
  obtain ⟨here, -, ⟨-, rfl⟩ | ⟨-, rfl⟩⟩ := makeDir_eq_ok.mp hmake
  · exact hs
  · exact Table.nodup_put hs here _

theorem Closed.place_file (h : t.Closed) (hdir : t.entry? here.dropLast = some .directory)
    (hfree : t.entry? here ≠ some .directory) (content : Content) : (t.place here (.file content)).Closed := by
  intro there name hentry
  by_cases hlast : there ++ [name] = here
  · rw [← hlast, List.dropLast_concat] at hdir
    have hne : there ≠ here := fun heq => by simp [← hlast] at heq
    rw [place_entry_of_ne hne, hdir]
  · rw [place_entry_of_ne hlast] at hentry
    have hthere := h there name hentry
    have hne : there ≠ here := fun heq => hfree (heq ▸ hthere)
    rw [place_entry_of_ne hne, hthere]

/-- A write that changes nothing leaves no marks. -/
theorem Sound.written (h : t.Sound) (place : Location) : Written place (fun _ => none) t t :=
  ⟨fun _ => rfl, fun _ _ h => (nomatch h), h⟩

theorem Made.written (h : t.Made t' dir) (hsound : t.Sound) (hdistinct : (t'.entries.map Prod.fst).Nodup)
    (hway : t.Way dir) (name : Text) :
    Written (dir ++ [name]) (fun here => if here <+: dir then some .directory else none) t t' := by
  refine ⟨fun here => ?_, fun here e he => ?_, h.closed hsound.closed, hdistinct⟩
  · rw [h]
    split <;> rfl
  · obtain ⟨hpre, he⟩ := Option.ite_none_right_eq_some.mp he
    refine .inl ⟨by rwa [List.dropLast_concat], (Option.some.inj he).symm, way_iff_file?.mp hway here hpre⟩

/-- The file is put where it belongs behind the directories. -/
theorem Made.written_place (h : t.Made t' dir) (hsound : t.Sound) (hdistinct : (t'.entries.map Prod.fst).Nodup)
    (hway : t.Way dir) (hfree : t'.entry? (dir ++ [name]) ≠ some .directory) (content : Content) :
    Written (dir ++ [name]) (fun here => if here = dir ++ [name] then some (.file content)
      else if here <+: dir then some .directory else none) t (t'.place (dir ++ [name]) (.file content)) := by
  have hmade := h.written hsound hdistinct hway name
  have hdir : t'.entry? dir = some .directory := by rw [h, if_pos List.prefix_rfl]
  refine ⟨fun here => ?_, fun here e he => ?_, hmade.sound.closed.place_file (by rwa [List.dropLast_concat]) hfree _,
    Table.nodup_put hdistinct _ _⟩
  · split
    · rename_i heq
      rw [heq, place_entry_self (List.append_ne_nil_of_right_ne_nil _ (List.cons_ne_nil _ _))]
      rfl
    · rename_i hne
      rw [place_entry_of_ne hne, hmade.entry]
  · split at he
    · rename_i heq
      refine .inr ⟨heq, ⟨content, (Option.some.inj he).symm⟩, fun hentry => hfree ?_⟩
      rw [h, ← heq, hentry, ite_self]
    · exact hmade.marked here e he

/-- Two trees with a directory refuse a file in it alike, or take it both. -/
theorem replaceFile_alike {p : Path} (hu : u.Leads cwd p.root p.names dir) (hw : w.Leads cwd p.root p.names dir)
    (hclosed : u.Closed) (hclosed' : w.Closed) (hdir : u.entry? dir = some .directory)
    (hdir' : w.entry? dir = some .directory) (hplain : name ≠ parentName)
    (hplace : u.entry? (dir ++ [name]) = some .directory ↔ w.entry? (dir ++ [name]) = some .directory) (text : Text) :
    (∃ fault, u.replaceFile cwd (p.child name) text = .error fault ∧
      w.replaceFile cwd (p.child name) text = .error fault) ∨
      ∃ chars, u.replaceFile cwd (p.child name) text = .ok (u.place (dir ++ [name]) (.file (.text chars))) ∧
        w.replaceFile cwd (p.child name) text = .ok (w.place (dir ++ [name]) (.file (.text chars))) ∧
          u.entry? (dir ++ [name]) ≠ some .directory := by
  rw [replaceFile, replaceFile, locate_child hu hclosed hdir hplain, locate_child hw hclosed' hdir' hplain]
  cases (p.child name).refusal? with
  | some fault => exact .inl ⟨fault, rfl, rfl⟩
  | none =>
    by_cases hlong : longestName < name.bytes.length
    · simp only [if_pos hlong]
      exact .inl ⟨_, rfl, rfl⟩
    · simp only [if_neg hlong, bind, Except.bind]
      by_cases hroom : LacksRoom cwd (p.child name)
      · simp only [if_pos hroom]
        exact .inl ⟨_, rfl, rfl⟩
      · simp only [if_neg hroom]
        cases text.chars? with
        | none => exact .inl ⟨_, rfl, rfl⟩
        | some chars =>
          by_cases hname : (p.child name).names = [] ∨ (p.child name).name = parentName
          · simp only [if_pos hname]
            exact .inl ⟨_, rfl, rfl⟩
          · simp only [if_neg hname]
            by_cases hfree : u.entry? (dir ++ [name]) = some .directory
            · simp only [if_pos hfree, if_pos (hplace.mp hfree)]
              exact .inl ⟨_, rfl, rfl⟩
            · simp only [if_neg hfree, if_neg (mt hplace.mpr hfree)]
              exact .inr ⟨chars, rfl, rfl, hfree⟩

theorem write_of_makeDirs_error {fault : FileFault} (h : t.makeDirs cwd p = (t', some fault)) (name text : Text) :
    t.write cwd (p.child name) text = (t', some fault) := by
  have hparent : (p.child name).parent = p := by simp [Path.child, Path.parent]
  simp only [write, hparent, h]

theorem write_of_makeDirs {p : Path} (h : t.makeDirs cwd p = (t', none)) (name text : Text) :
    t.write cwd (p.child name) text = match t'.replaceFile cwd (p.child name) text with
      | .ok t => (t, none)
      | .error fault => (t', some fault) := by
  have hparent : (p.child name).parent = p := by simp [Path.child, Path.parent]
  cases hreplace : t'.replaceFile cwd (p.child name) text with
  | ok t => simp only [write, hparent, h, hreplace]
  | error fault => simp only [write, hparent, h, hreplace]

/-- Two trees answer a write to a place alike, and it leaves the same marks on both. -/
def WritesAlike (cwd : Location) (p : Path) (place : Location) (text : Text) (u w : Tree) : Prop :=
  (w.write cwd p text).2 = (u.write cwd p text).2 ∧ ∃ marks, Written place marks u (u.write cwd p text).1 ∧
    Written place marks w (w.write cwd p text).1

/-- Refused before anything was made, a write leaves no marks. -/
theorem writesAlike_of_refused {fault : FileFault} (hu : u.Sound) (hw : w.Sound)
    (hmake : u.makeDirs cwd p = (u, some fault)) (hmake' : w.makeDirs cwd p = (w, some fault)) (place : Location)
    (name text : Text) : WritesAlike cwd (p.child name) place text u w := by
  unfold WritesAlike
  rw [write_of_makeDirs_error hmake, write_of_makeDirs_error hmake']
  exact ⟨rfl, _, hu.written _, hw.written _⟩

/-- Where no file is on the way, the directories are made in both trees, and then the file is put there or refused. -/
theorem writesAlike_of_way {p : Path} (hu : u.Sound) (hw : w.Sound) (hleads : u.Leads cwd p.root p.names dir)
    (hleads' : w.Leads cwd p.root p.names dir) (hplain : name ≠ parentName) (hpath : p.refusal? = none)
    (hway : u.Way dir) (hway' : w.Way dir)
    (hplace : u.entry? (dir ++ [name]) = some .directory ↔ w.entry? (dir ++ [name]) = some .directory) (text : Text) :
    WritesAlike cwd (p.child name) (dir ++ [name]) text u w := by
  obtain ⟨u₁, hmake, hmade⟩ := makeDirs_of_leads hleads hu.closed hpath hway
  obtain ⟨w₁, hmake', hmade'⟩ := makeDirs_of_leads hleads' hw.closed hpath hway'
  have hdistinct := hmake ▸ distinct_makeDirs hu.distinct cwd p
  have hdistinct' := hmake' ▸ distinct_makeDirs hw.distinct cwd p
  have hentry : ∀ {t t' : Tree}, t.Made t' dir → t'.entry? (dir ++ [name]) = t.entry? (dir ++ [name]) :=
    fun h => by rw [h, if_neg fun hpre => absurd hpre.length_le (by simp)]
  unfold WritesAlike
  rw [write_of_makeDirs hmake, write_of_makeDirs hmake']
  rcases replaceFile_alike (hleads.mono hmade.keepsDirectories) (hleads'.mono hmade'.keepsDirectories)
    (hmade.closed hu.closed) (hmade'.closed hw.closed) (by rw [hmade, if_pos List.prefix_rfl])
    (by rw [hmade', if_pos List.prefix_rfl]) hplain (by rwa [hentry hmade, hentry hmade']) text with
    ⟨fault, hreplace, hreplace'⟩ | ⟨chars, hreplace, hreplace', hfree⟩
  · rw [hreplace, hreplace']
    exact ⟨rfl, _, hmade.written hu hdistinct hway name, hmade'.written hw hdistinct' hway' name⟩
  · rw [hreplace, hreplace']
    have hfree' : w₁.entry? (dir ++ [name]) ≠ some .directory := by
      rwa [hentry hmade', ne_eq, ← hplace, ← hentry hmade]
    exact ⟨rfl, _, hmade.written_place hu hdistinct hway hfree _, hmade'.written_place hw hdistinct' hway' hfree' _⟩

/-- Two trees in which paths lead on from the same directory, with files in the same places on the way, answer a write
alike, and it leaves the same marks on both. -/
theorem writesAlike {p : Path} (hu : u.Sound) (hw : w.Sound) (hleads : u.Leads cwd p.root p.names dir)
    (hleads' : w.Leads cwd p.root p.names dir) (hplain : name ≠ parentName)
    (hways : ∀ front, front <+: dir → (u.file? front = none ↔ w.file? front = none))
    (hplace : u.entry? (dir ++ [name]) = some .directory ↔ w.entry? (dir ++ [name]) = some .directory) (text : Text) :
    WritesAlike cwd (p.child name) (dir ++ [name]) text u w := by
  have hwayIff : ∀ front, front <+: dir → (u.Way front ↔ w.Way front) := fun front hfront => by
    rw [way_iff_file?, way_iff_file?]
    exact forall_congr' fun other => imp_congr_right fun hother => hways other (hother.trans hfront)
  cases hrefusal : p.refusal? with
  | some fault =>
    exact writesAlike_of_refused hu hw (makeDirs_of_refusal hrefusal) (makeDirs_of_refusal hrefusal) _ name text
  | none =>
    by_cases hfront : u.Way dir.dropLast
    · cases hfile : u.file? dir with
      | some content =>
        obtain ⟨content', hfile'⟩ := Option.ne_none_iff_exists'.mp
          (mt (hways dir List.prefix_rfl).mpr (by rw [hfile]; exact Option.some_ne_none _))
        exact writesAlike_of_refused hu hw (makeDirs_of_file hleads hu.closed hrefusal (file?_eq_some.mp hfile))
          (makeDirs_of_file hleads' hw.closed hrefusal (file?_eq_some.mp hfile')) _ name text
      | none =>
        have hway : u.Way dir := way_iff_dropLast.mpr ⟨file?_eq_none.mp hfile, hfront⟩
        exact writesAlike_of_way hu hw hleads hleads' hplain hrefusal hway ((hwayIff dir List.prefix_rfl).mp hway)
          hplace text
    · have hfront' := mt (hwayIff _ (List.dropLast_prefix dir)).mpr hfront
      exact writesAlike_of_refused hu hw (makeDirs_of_not_way hleads hu.closed hrefusal hfront)
        (makeDirs_of_not_way hleads' hw.closed hrefusal hfront') _ name text

namespace Written

variable {marks : Location → Option Entry}

/-- No file has changed but the one at the place. -/
theorem file?_of_ne (h : Written place marks t t') (hne : here ≠ place) : t'.file? here = t.file? here := by
  unfold file?
  rw [h.entry]
  cases hmark : marks here with
  | none => rfl
  | some e =>
    rcases h.marked here e hmark with ⟨-, rfl, hnone⟩ | ⟨rfl, -⟩
    · exact hnone.symm
    · exact absurd rfl hne

theorem keepsDirectories (h : Written place marks t t') : t.KeepsDirectories t' := by
  intro here hdir
  rw [h.entry]
  cases hmark : marks here with
  | none => exact hdir
  | some e =>
    rcases h.marked here e hmark with ⟨-, rfl, -⟩ | ⟨-, -, hfree⟩
    · rfl
    · exact absurd hdir hfree

/-- What was the same in two trees is the same behind a write that leaves the same marks. -/
theorem entry_congr (hu : Written place marks u t) (hw : Written place marks w t')
    (h : u.entry? here = w.entry? here) : t.entry? here = t'.entry? here := by
  rw [hu.entry, hw.entry, h]

theorem file?_congr (hu : Written place marks u t) (hw : Written place marks w t')
    (h : u.file? here = w.file? here) : t.file? here = t'.file? here := by
  unfold file? at h ⊢
  rw [hu.entry, hw.entry]
  cases marks here with
  | none => exact h
  | some e => rfl

theorem file?_eq_none_congr (hu : Written place marks u t) (hw : Written place marks w t')
    (h : u.file? here = none ↔ w.file? here = none) : t.file? here = none ↔ t'.file? here = none := by
  unfold file? at h ⊢
  rw [hu.entry, hw.entry]
  cases marks here with
  | none => exact h
  | some e => rfl

end Written

end Tree

end Regraft

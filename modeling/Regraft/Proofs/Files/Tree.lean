import Regraft.Files.Tree
/-!
# Files that stay where they are

A file that can be read and written at a path (`Tree.Keeps`) is written in place: the directories on the way to it are
there, nothing else in the tree changes, and the path leads to the file as before.

* `Keeps.write`: what writing does to the tree;
* `keeps_of_write`: a file that can be read, and can be written once, is such a file.
-/
namespace Regraft

/-! ## Paths of directories -/

theorem joinWith_dropLast (sep : Text) (names : List Text) : joinWith sep names.dropLast <+: joinWith sep names := by
  induction names with
  | nil => exact List.prefix_rfl
  | cons t names ih =>
    cases names with
    | nil => exact List.nil_prefix
    | cons u names =>
      rw [List.dropLast_cons_of_ne_nil (List.cons_ne_nil u names)]
      cases hrest : (u :: names).dropLast with
      | nil =>
        rw [joinWith_cons_cons, List.append_assoc]
        exact List.prefix_append _ _
      | cons v rest =>
        rw [hrest] at ih
        rw [joinWith_cons_cons, joinWith_cons_cons, List.append_assoc, List.append_assoc]
        exact List.prefix_append_right_inj t |>.mpr (List.prefix_append_right_inj sep |>.mpr ih)

/-- The path of a directory is written as the start of the path of a file in it. -/
theorem Path.toText_parent (p : Path) : p.parent.toText = [char '.'] ∨ p.parent.toText <+: p.toText := by
  have hjoin := joinWith_dropLast [char '/'] p.names
  obtain ⟨root, names⟩ := p
  cases root with
  | relative =>
    simp only [Path.parent, Path.toText, List.isEmpty_iff] at hjoin ⊢
    by_cases hdir : joinWith [char '/'] names.dropLast = []
    · simp [hdir]
    · have hfile : joinWith [char '/'] names ≠ [] := by
        intro hnil
        rw [hnil] at hjoin
        exact hdir (List.prefix_nil.mp hjoin)
      rw [if_neg hdir, if_neg hfile]
      exact .inr hjoin
  | slash => exact .inr (List.prefix_cons_inj _ |>.mpr hjoin)
  | doubleSlash => exact .inr (List.prefix_cons_inj _ |>.mpr (List.prefix_cons_inj _ |>.mpr hjoin))

theorem Path.unfit?_parent {p : Path} (h : p.unfit? = none) : p.parent.unfit? = none := by
  unfold Path.unfit? at h ⊢
  rcases p.toText_parent with hdot | ⟨rest, hrest⟩
  · rw [hdot]
    decide
  · rw [← hrest] at h
    simp only [List.all_append, List.contains_append] at h
    split at h
    · cases h
    · rename_i hall
      split at h
      · cases h
      · rename_i hnul
        simp only [Bool.not_eq_true, Bool.not_eq_false', Bool.and_eq_true, Bool.or_eq_true, not_or] at hall hnul
        rw [if_neg (by simp [hall.1]), if_neg (by simpa using hnul.1)]

theorem Path.bytes_parent (p : Path) : p.parent.toText.bytes.length ≤ max 1 p.toText.bytes.length := by
  rcases p.toText_parent with hdot | ⟨rest, hrest⟩
  · rw [hdot]
    exact Nat.le_max_left _ _
  · rw [← hrest, Text.bytes, Text.bytes, List.flatMap_append, List.length_append]
    omega

namespace Tree

variable {t : Tree} {cwd here : Location} {p : Path}

/-! ## Following paths -/

theorem place_entry_self (h : here ≠ []) (e : Entry) : entry? (t.place here e) here = some e := by
  unfold entry? place
  simp [h]

theorem place_entry_of_ne {there : Location} (h : there ≠ here) (e : Entry) :
    entry? (t.place here e) there = t.entry? there := by
  unfold entry?
  split
  · rfl
  · exact Table.get?_put_of_ne h e t.entries

/-- A name leads on from a directory, unless it is too long. -/
theorem follow_cons_eq_ok {path name : Text} {names : List Text} {start : Location} :
    t.follow path start (name :: names) = .ok here ↔ t.entry? start = some .directory ∧
      name.bytes.length ≤ longestName ∧
        t.follow path (if name = parentName then start.dropLast else start ++ [name]) names = .ok here := by
  rw [follow]
  cases hentry : t.entry? start with
  | none => simp
  | some e =>
    cases e with
    | file content => simp
    | directory =>
      by_cases hlong : longestName < name.bytes.length
      · simp [hlong, Nat.not_le.mpr hlong]
      · simp [hlong, Nat.not_lt.mp hlong]

/-- Names lead to the same place in a tree with the same directories and more. What is asked for in a fault does not
matter. -/
theorem follow_of_directories {t' : Tree} (hkeeps : ∀ dir, t.entry? dir = some .directory → t'.entry? dir = some .directory)
    {path : Text} {names : List Text} (other : Text) :
    ∀ {start : Location}, t.follow path start names = .ok here → t'.follow other start names = .ok here := by
  induction names with
  | nil => exact fun h => h
  | cons name names ih =>
    intro start h
    rw [follow_cons_eq_ok] at h ⊢
    exact ⟨hkeeps start h.1, h.2.1, ih h.2.2⟩

theorem follow_eq_ok {path : Text} {names : List Text} (other : Text) {start : Location}
    (h : t.follow path start names = .ok here) : t.follow other start names = .ok here :=
  follow_of_directories (fun _ => id) other h

/-- Names lead on from where the first of them lead. -/
theorem follow_append {path : Text} {front back : List Text} :
    ∀ {start : Location}, t.follow path start (front ++ back) = .ok here →
      ∃ mid, t.follow path start front = .ok mid ∧ t.follow path mid back = .ok here := by
  induction front with
  | nil => exact fun h => ⟨_, rfl, h⟩
  | cons name front ih =>
    intro start h
    rw [List.cons_append, follow_cons_eq_ok] at h
    obtain ⟨hentry, hshort, hrest⟩ := h
    obtain ⟨mid, hfront, hback⟩ := ih hrest
    exact ⟨mid, by rw [follow_cons_eq_ok]; exact ⟨hentry, hshort, hfront⟩, hback⟩

/-- A path leads through a directory to its last name. -/
theorem exists_of_follow_concat {path : Text} {names : List Text} {name : Text} {start : Location}
    (h : t.follow path start (names ++ [name]) = .ok here) :
    ∃ dir, t.follow path start names = .ok dir ∧ t.entry? dir = some .directory := by
  obtain ⟨dir, hdir, hlast⟩ := follow_append h
  rw [follow_cons_eq_ok] at hlast
  exact ⟨dir, hdir, hlast.1⟩

/-- Names lead to the same place when something is put where no directory is. -/
theorem follow_place {path : Text} {names : List Text} (hfile : t.entry? here ≠ some .directory) (e : Entry)
    {there start : Location} (h : t.follow path start names = .ok there) :
    (t.place here e).follow path start names = .ok there := by
  refine follow_of_directories (fun dir hdir => ?_) path h
  have hne : dir ≠ here := fun heq => hfile (heq ▸ hdir)
  exact (place_entry_of_ne hne e).trans hdir

theorem locate_eq_ok : t.locate cwd p = .ok here ↔ p.unfit? = none ∧ p.toText.bytes.length ≤ longestPath ∧
    t.follow p.toText (if p.isAbsolute then [] else cwd) p.names = .ok here := by
  unfold locate
  cases p.unfit? with
  | some fault => simp
  | none =>
    simp only [true_and]
    split
    · rename_i hlong
      simp [Nat.not_le.mpr hlong]
    · rename_i hshort
      simp [Nat.not_lt.mp hshort]

/-! ## Writing in place -/

/-- The directory of what is at the end of a path. -/
theorem locate_parent (h : t.locate cwd p = .ok here) (hne : p.names ≠ []) :
    ∃ dir, t.locate cwd p.parent = .ok dir ∧ t.entry? dir = some .directory := by
  obtain ⟨hfit, hshort, hfollow⟩ := locate_eq_ok.mp h
  rw [← List.dropLast_concat_getLast hne] at hfollow
  obtain ⟨dir, hdir, hentry⟩ := exists_of_follow_concat hfollow
  have hbytes := p.bytes_parent
  have hpath : 1 ≤ longestPath := by decide
  exact ⟨dir, locate_eq_ok.mpr ⟨p.unfit?_parent hfit, by omega, follow_eq_ok _ hdir⟩, hentry⟩

theorem makeDirs_of_directory (h : t.locate cwd p = .ok here) (hentry : t.entry? here = some .directory) :
    t.makeDirs cwd p = (t, none) := by
  have hmake : t.makeDir cwd p = .ok t := by
    simp [makeDir, h, hentry, bind, Except.bind, pure, Except.pure]
  obtain ⟨root, names⟩ := p
  unfold makeDirs
  cases hnames : names.reverse with
  | nil =>
    obtain rfl : names = [] := List.reverse_eq_nil_iff.mp hnames
    rw [makeDirsFrom, hmake]
  | cons name rest =>
    have hback : (name :: rest).reverse = names := by rw [← hnames, List.reverse_reverse]
    simp only [makeDirsFrom, hback, hmake]

/-- A text file at the end of a path that can be written in place. -/
structure Keeps (t : Tree) (cwd : Location) (p : Path) (here : Location) (chars : List Char) : Prop where
  located : t.locate cwd p = .ok here
  entry : t.entry? here = some (.file (.text chars))
  named : p.names ≠ [] ∧ p.name ≠ parentName
  roomy : ¬LacksRoom cwd p

variable {chars : List Char}

theorem Keeps.read (h : t.Keeps cwd p here chars) : t.read cwd p = .ok (.text chars) := by
  simp [Tree.read, h.located, h.entry, bind, Except.bind, pure, Except.pure]

theorem Keeps.probe (h : t.Keeps cwd p here chars) : t.probe cwd p = .ok (some .file) := by
  simp [Tree.probe, h.located, h.entry, Entry.kind]

theorem Keeps.replaceFile (h : t.Keeps cwd p here chars) (new : List Char) :
    t.replaceFile cwd p (Text.ofChars new) = .ok (t.place here (.file (.text new))) := by
  have hname : ¬ (p.names = [] ∨ p.name = parentName) := not_or.mpr h.named
  simp [Tree.replaceFile, h.located, h.entry, hname, h.roomy, bind, Except.bind, pure, Except.pure]

/-- Writing puts the text in the place of the old one, and changes nothing else. -/
theorem Keeps.write (h : t.Keeps cwd p here chars) (new : List Char) :
    t.write cwd p (Text.ofChars new) = (t.place here (.file (.text new)), none) := by
  obtain ⟨dir, hdir, hentry⟩ := locate_parent h.located h.named.1
  rw [Tree.write, makeDirs_of_directory hdir hentry]
  simp only [h.replaceFile new]

theorem Keeps.place (h : t.Keeps cwd p here chars) (new : List Char) :
    (t.place here (.file (.text new))).Keeps cwd p here new := by
  have hroot : here ≠ [] := by
    intro hnil
    have hentry := h.entry
    rw [hnil] at hentry
    cases hentry
  obtain ⟨hfit, hlong, hfollow⟩ := locate_eq_ok.mp h.located
  refine ⟨locate_eq_ok.mpr ⟨hfit, hlong, follow_place ?_ _ hfollow⟩, place_entry_self hroot _, h.named, h.roomy⟩
  rw [h.entry]
  simp

/-- A text file that can be written once can be written in place. -/
theorem keeps_of_write (hread : t.read cwd p = .ok (.text chars))
    (hwrite : (t.write cwd p (Text.ofChars chars)).2 = none) : ∃ here, t.Keeps cwd p here chars := by
  unfold Tree.read at hread
  cases hlocate : t.locate cwd p with
  | error fault => simp [hlocate, bind, Except.bind] at hread
  | ok here =>
    simp only [hlocate, bind, Except.bind] at hread
    have hentry : t.entry? here = some (.file (.text chars)) := by
      split at hread
      · cases hread
      · cases hread
      · rename_i content hfile
        obtain rfl := Except.ok.inj hread
        exact hfile
    have hnames : p.names ≠ [] := by
      intro hnil
      obtain ⟨root, names⟩ := p
      obtain rfl : names = [] := hnil
      have hmake : t.makeDir cwd ⟨root, []⟩ = .error (.alreadyExists (Path.toText ⟨root, []⟩)) := by
        simp [makeDir, hlocate, hentry, bind, Except.bind, throw, throwThe, MonadExceptOf.throw]
      simp [Tree.write, Path.parent, makeDirs, makeDirsFrom, hmake] at hwrite
    obtain ⟨dir, hdir, hdirectory⟩ := locate_parent hlocate hnames
    have hreplace : ∃ t', t.replaceFile cwd p (Text.ofChars chars) = .ok t' := by
      rw [Tree.write, makeDirs_of_directory hdir hdirectory] at hwrite
      cases hreplace : t.replaceFile cwd p (Text.ofChars chars) with
      | ok t' => exact ⟨t', rfl⟩
      | error fault => simp [hreplace] at hwrite
    obtain ⟨t', hreplace⟩ := hreplace
    have hroomy : ¬LacksRoom cwd p := by
      intro hlong
      simp [replaceFile, hlocate, hlong, bind, Except.bind, throw, throwThe, MonadExceptOf.throw] at hreplace
    have hname : p.name ≠ parentName := by
      intro hup
      simp [replaceFile, hlocate, hup, bind, Except.bind, throw, throwThe, MonadExceptOf.throw] at hreplace
      split at hreplace <;> cases hreplace
    exact ⟨here, hlocate, hentry, ⟨hnames, hname⟩, hroomy⟩

end Tree

end Regraft

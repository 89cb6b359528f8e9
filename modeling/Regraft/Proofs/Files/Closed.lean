import Regraft.Proofs.Files.Growth
/-!
# Trees in which everything stands in a directory

In a tree in which everything stands in a directory (`Tree.Closed`), names without steps up lead to where they say if
there is a directory for the last of them (`Tree.follow_eq_ok_iff`). So it can be told beforehand whether a text can be
written to a path from the root (`Tree.Takes`).

* `Tree.takes_of_write`, `Tree.Takes.write`: a write is done exactly if the tree takes the text, and what is where then;
* `Tree.Wrote.closed`: everything still stands in a directory.
-/
namespace Regraft

/-- Names without steps up are kept as they are. -/
theorem Path.takeStepsUp_append {names : List Text} (h : parentName ∉ names) (front : List Text) :
    takeStepsUp (front ++ names) = takeStepsUp front ++ names := by
  induction names using List.reverseRecOn with
  | nil => rw [List.append_nil, List.append_nil]
  | append_singleton names last ih =>
    obtain ⟨hnames, hlast⟩ := not_or.mp (mt List.mem_append.mpr h)
    rw [← List.append_assoc, takeStepsUp, List.foldl_append, List.foldl_cons, List.foldl_nil, ← takeStepsUp, ih hnames,
      if_neg fun heq => hlast (List.mem_singleton.mpr heq.symm), List.append_assoc]

theorem Path.takeStepsUp_of_plain {names : List Text} (h : parentName ∉ names) : takeStepsUp names = names :=
  takeStepsUp_append h []

theorem Path.absolute_eq_ok {cwd : List Text} {p q : Path} (h : p.absolute cwd = .ok q) :
    q.names = takeStepsUp (if p.isAbsolute then p.names else cwd ++ p.names) := by
  unfold Path.absolute at h
  split at h
  · cases h
  · exact (congrArg Path.names (Except.ok.inj h)).symm

theorem Path.name_mem {p : Path} (h : p.names ≠ []) : p.name ∈ p.names := by
  rw [Path.name, List.getLastD_eq_getLast?, List.getLast?_eq_some_getLast h]
  exact List.getLast_mem h

/-- A path from the root without steps up. -/
structure Path.IsDirect (p : Path) : Prop where
  absolute : p.isAbsolute = true
  plain : parentName ∉ p.names

/-- A path that a system follows, as far as it leads. -/
structure Path.IsShort (p : Path) : Prop where
  fit : p.unfit? = none
  whole : p.toText.bytes.length ≤ Tree.longestPath
  names : ∀ name ∈ p.names, name.bytes.length ≤ Tree.longestName

theorem Path.IsDirect.parent {p : Path} (h : p.IsDirect) : p.parent.IsDirect :=
  ⟨h.absolute, fun hmem => h.plain (List.dropLast_subset _ hmem)⟩

theorem Path.IsShort.parent {p : Path} (h : p.IsShort) : p.parent.IsShort := by
  have hbytes := p.bytes_parent
  have hlongest : 1 ≤ Tree.longestPath := by decide
  have hwhole := h.whole
  exact ⟨p.unfit?_parent h.fit, by omega, fun name hname => h.names name (List.dropLast_subset _ hname)⟩

namespace Tree

variable {t t' t'' : Tree} {cwd here start : Location} {p : Path} {path : Text} {names : List Text}

/-- Whatever is in a tree stands in a directory. -/
def Closed (t : Tree) : Prop := ∀ here name, t.entry? (here ++ [name]) ≠ none → t.entry? here = some .directory

/-- It is enough to look at the entries. -/
theorem closed_iff : t.Closed ↔ ∀ e ∈ t.entries, e.1 ≠ [] → t.entry? e.1.dropLast = some .directory := by
  constructor
  · intro h e he hne
    refine h e.1.dropLast (e.1.getLast hne) ?_
    rw [List.dropLast_concat_getLast, Tree.entry?, if_neg hne]
    exact fun hnone => Table.get?_eq_none_iff.mp hnone (List.mem_map_of_mem he)
  · intro h here name hentry
    rw [Tree.entry?, if_neg (by simp)] at hentry
    obtain ⟨e, he⟩ := Option.ne_none_iff_exists'.mp hentry
    simpa using h _ (Table.mem_of_get?_eq_some he) (by simp)

instance (t : Tree) : Decidable t.Closed := decidable_of_iff _ closed_iff.symm

theorem Closed.directory (h : t.Closed) {back : List Text} (hback : back ≠ []) :
    ∀ {here : Location}, t.entry? (here ++ back) ≠ none → t.entry? here = some .directory := by
  induction back using List.reverseRecOn with
  | nil => exact absurd rfl hback
  | append_singleton back name ih =>
    intro here hentry
    rw [← List.append_assoc] at hentry
    have hdir := h _ _ hentry
    by_cases hnil : back = []
    · rwa [hnil, List.append_nil] at hdir
    · exact ih hnil (by rw [hdir]; exact Option.some_ne_none _)

/-- The directories around a location are those that its names lead through. -/
theorem Closed.directory_of_prefix (h : t.Closed) {front : Location} (hfront : front <+: here)
    (hdir : t.entry? here = some .directory) : t.entry? front = some .directory := by
  obtain ⟨back, rfl⟩ := hfront
  by_cases hnil : back = []
  · rwa [hnil, List.append_nil] at hdir
  · exact h.directory hnil (by rw [hdir]; exact Option.some_ne_none _)

theorem Closed.entry?_eq_none (h : t.Closed) {names : List Text} (hne : names ≠ [])
    (hdir : t.entry? here ≠ some .directory) : t.entry? (here ++ names) = none :=
  Decidable.byContradiction fun hentry => hdir (h.directory hne hentry)

/-! ## Following names -/

/-- Names without steps up lead to where they say, if none of them is too long and the last one is for something in a
directory. -/
theorem follow_eq_ok_iff (h : t.Closed) (hplain : parentName ∉ names) :
    ∀ {start : Location}, t.follow path start names = .ok here ↔ here = start ++ names ∧
      (∀ name ∈ names, name.bytes.length ≤ longestName) ∧
        (names ≠ [] → t.entry? (start ++ names.dropLast) = some .directory) := by
  induction names with
  | nil =>
    intro start
    simp [follow, eq_comm]
  | cons name names ih =>
    intro start
    obtain ⟨hname, hnames⟩ := not_or.mp (mt List.mem_cons.mpr hplain)
    rw [follow_cons_eq_ok, if_neg (Ne.symm hname), ih hnames, List.append_assoc, List.singleton_append,
      List.forall_mem_cons]
    by_cases hnil : names = []
    · simp [hnil, and_assoc, and_comm]
    · have hlast : start ++ (name :: names).dropLast = start ++ [name] ++ names.dropLast := by
        rw [List.dropLast_cons_of_ne_nil hnil]
        simp
      rw [hlast]
      constructor
      · intro hfollow
        exact ⟨hfollow.2.2.1, ⟨hfollow.2.1, hfollow.2.2.2.1⟩, fun _ => hfollow.2.2.2.2 hnil⟩
      · intro hstands
        have hdir := hstands.2.2 (List.cons_ne_nil _ _)
        refine ⟨h.directory_of_prefix ?_ hdir, hstands.2.1.1, hstands.1, hstands.2.1.2, fun _ => hdir⟩
        rw [List.append_assoc]
        exact List.prefix_append _ _

/-- Names are followed on from where the first of them lead. -/
theorem follow_append_of_ok {front : List Text} (back : List Text) :
    ∀ {start mid : Location}, t.follow path start front = .ok mid →
      t.follow path start (front ++ back) = t.follow path mid back := by
  induction front with
  | nil =>
    intro start mid h
    obtain rfl : start = mid := Except.ok.inj h
    rfl
  | cons name front ih =>
    intro start mid h
    obtain ⟨hentry, hshort, hrest⟩ := follow_cons_eq_ok.mp h
    rw [List.cons_append, follow, hentry, ← ih hrest]
    exact if_neg (Nat.not_lt.mpr hshort)

/-- No file is on the way to a location, nor at it. -/
def Way (t : Tree) (here : Location) : Prop :=
  ∀ front, front <+: here → t.entry? front = none ∨ t.entry? front = some .directory

theorem Way.front (h : t.Way here) {front : Location} (hfront : front <+: here) : t.Way front :=
  fun other hother => h other (hother.trans hfront)

/-- Names that lead through something missing, but through no file, lead to nothing. -/
theorem follow_missing (hplain : parentName ∉ names) (hne : names ≠ [])
    (hshort : ∀ name ∈ names, name.bytes.length ≤ longestName) : ∀ {start : Location},
    (∀ front, front <+: names.dropLast → t.entry? (start ++ front) = none ∨ t.entry? (start ++ front) = some .directory) →
      t.entry? (start ++ names.dropLast) = none → t.follow path start names = .error (.notFound path) := by
  induction names with
  | nil => exact absurd rfl hne
  | cons name names ih =>
    intro start hway hnone
    obtain ⟨hname, hnames⟩ := not_or.mp (mt List.mem_cons.mpr hplain)
    obtain ⟨hfirst, hrest⟩ := List.forall_mem_cons.mp hshort
    have hstart := hway [] List.nil_prefix
    rw [List.append_nil] at hstart
    rw [follow]
    rcases hstart with hstart | hstart
    · simp only [hstart]
    · simp only [hstart]
      rw [if_neg (Nat.not_lt.mpr hfirst), if_neg (Ne.symm hname)]
      by_cases hnil : names = []
      · rw [hnil, List.dropLast_singleton, List.append_nil, hstart] at hnone
        cases hnone
      · rw [List.dropLast_cons_of_ne_nil hnil] at hway hnone
        refine ih hnames hnil hrest (fun front hfront => ?_) (by simpa using hnone)
        simpa using hway (name :: front) (List.prefix_cons_inj name |>.mpr hfront)

/-- Where a path from the root without steps up leads. -/
theorem locate_eq_ok_iff (h : t.Closed) (hp : p.IsDirect) : t.locate cwd p = .ok here ↔ p.IsShort ∧ here = p.names ∧
    (p.names ≠ [] → t.entry? p.names.dropLast = some .directory) := by
  rw [locate_eq_ok, hp.absolute, if_pos rfl, follow_eq_ok_iff h hp.plain]
  constructor
  · rintro ⟨hfit, hwhole, hhere, hnames, hdir⟩
    exact ⟨⟨hfit, hwhole, hnames⟩, hhere, hdir⟩
  · rintro ⟨⟨hfit, hwhole, hnames⟩, hhere, hdir⟩
    exact ⟨hfit, hwhole, hhere, hnames, hdir⟩

theorem locate_missing (hp : p.IsDirect) (hshort : p.IsShort) (hne : p.names ≠ []) (hway : t.Way p.names.dropLast)
    (hnone : t.entry? p.names.dropLast = none) : t.locate cwd p = .error (.notFound p.toText) := by
  simp only [locate, hshort.fit, hp.absolute, if_true]
  rw [if_neg (Nat.not_lt.mpr hshort.whole)]
  exact follow_missing hp.plain hne hshort.names hway hnone

/-! ## Making directories -/

/-- A tree has become one with the directories on the way to a location, and is the same otherwise. -/
def Made (t t' : Tree) (dir : Location) : Prop :=
  ∀ here, t'.entry? here = if here <+: dir then some .directory else t.entry? here

variable {dir : Location}

theorem Made.closed (h : t.Made t' dir) (hclosed : t.Closed) : t'.Closed := by
  intro here name hentry
  rw [h] at hentry ⊢
  by_cases hfront : here <+: dir
  · rw [if_pos hfront]
  · have hname : ¬here ++ [name] <+: dir := fun hpre => hfront ((List.prefix_append _ _).trans hpre)
    rw [if_neg hname] at hentry
    rw [if_neg hfront, hclosed here name hentry]

theorem Made.trans (h : t.Made t' here) (h' : t'.Made t'' dir) (hfront : here <+: dir) : t.Made t'' dir := by
  intro there
  rw [h', h]
  by_cases hthere : there <+: dir
  · rw [if_pos hthere, if_pos hthere]
  · rw [if_neg hthere, if_neg fun hpre => hthere (hpre.trans hfront), if_neg hthere]

/-- A directory that is made in one is the last of those on the way to it. -/
theorem made_of_locate (hclosed : t.Closed) (hlocate : t.locate cwd p = .ok here)
    (hdir : t.entry? here.dropLast = some .directory) (h : t.makeDir cwd p = .ok t') : t.Made t' here := by
  obtain ⟨there, hthere, hmade⟩ := makeDir_eq_ok.mp h
  obtain rfl := Except.ok.inj (hlocate.symm.trans hthere)
  have hfront : ∀ front, front <+: here → front ≠ here → t.entry? front = some .directory := by
    intro front hpre hne
    have hnil : here ≠ [] := by
      rintro rfl
      exact hne (List.prefix_nil.mp hpre)
    refine hclosed.directory_of_prefix ?_ hdir
    rw [← List.dropLast_concat_getLast hnil] at hpre hne
    exact (List.prefix_concat_iff.mp hpre).resolve_left hne
  intro there
  rcases hmade with ⟨hentry, rfl⟩ | ⟨hnone, rfl⟩
  · split
    · rename_i hpre
      exact hclosed.directory_of_prefix hpre hentry
    · rfl
  · by_cases hthere : there = here
    · have hroot : here ≠ [] := by
        rintro rfl
        cases hnone
      rw [hthere, place_entry_self hroot, if_pos List.prefix_rfl]
    · rw [place_entry_of_ne hthere]
      split
      · rename_i hpre
        exact hfront there hpre hthere
      · rfl

theorem made_of_makeDir (hclosed : t.Closed) (hp : p.IsDirect) (h : t.makeDir cwd p = .ok t') :
    t.Made t' p.names := by
  obtain ⟨here, hlocate, -⟩ := makeDir_eq_ok.mp h
  obtain ⟨-, rfl, hdir⟩ := (locate_eq_ok_iff hclosed hp).mp hlocate
  refine made_of_locate hclosed hlocate ?_ h
  by_cases hnil : p.names = []
  · rw [hnil]
    rfl
  · exact hdir hnil

/-- What was made is the directories on the way, and nothing else. -/
theorem made_of_makeDirsFrom {start : PathRoot} (hstart : start ≠ .relative) (hclosed : t.Closed) {names : List Text}
    (hplain : parentName ∉ names) (h : makeDirsFrom cwd start names t = (t', none)) : t.Made t' names.reverse := by
  have hdirect : ∀ {front : List Text}, parentName ∉ front → Path.IsDirect ⟨start, front.reverse⟩ := fun hfront =>
    ⟨by simpa [Path.isAbsolute] using hstart, by simpa using hfront⟩
  induction names generalizing t' with
  | nil =>
    rw [makeDirsFrom] at h
    split at h
    · rename_i hmake
      obtain ⟨rfl, -⟩ := Prod.mk.inj h
      exact made_of_makeDir hclosed (hdirect hplain) hmake
    · cases h
  | cons name names ih =>
    simp only [makeDirsFrom] at h
    split at h
    · rename_i hmake
      obtain ⟨rfl, -⟩ := Prod.mk.inj h
      exact made_of_makeDir hclosed (hdirect hplain) hmake
    · -- The directory around it was missing, and was made first.
      split at h
      · cases h
      · rename_i made hmade
        have hfront := ih (fun hmem => hplain (List.mem_cons_of_mem _ hmem)) hmade
        split at h
        · rename_i hmake
          obtain ⟨rfl, -⟩ := Prod.mk.inj h
          refine hfront.trans (made_of_makeDir (hfront.closed hclosed) (hdirect hplain) hmake) ?_
          rw [List.reverse_cons]
          exact List.prefix_append _ _
        · cases h
    · cases h

theorem made_of_makeDirs (hclosed : t.Closed) (hp : p.IsDirect) (h : t.makeDirs cwd p = (t', none)) :
    t.Made t' p.names := by
  have hmade := made_of_makeDirsFrom (by simpa [Path.isAbsolute] using hp.absolute) hclosed
    (by simpa using hp.plain) h
  rwa [List.reverse_reverse] at hmade

theorem makeDir_of_way (cwd : Location) (hclosed : t.Closed) (hp : p.IsDirect) (hshort : p.IsShort)
    (hway : t.Way p.names) (hdir : p.names ≠ [] → t.entry? p.names.dropLast = some .directory) :
    ∃ t', t.makeDir cwd p = .ok t' := by
  have hlocate : t.locate cwd p = .ok p.names := (locate_eq_ok_iff hclosed hp).mpr ⟨hshort, rfl, hdir⟩
  rcases hway p.names List.prefix_rfl with hnone | hentry
  · exact ⟨_, makeDir_eq_ok.mpr ⟨_, hlocate, .inr ⟨hnone, rfl⟩⟩⟩
  · exact ⟨_, makeDir_eq_ok.mpr ⟨_, hlocate, .inl ⟨hentry, rfl⟩⟩⟩

/-- Directories can be made where no file is on the way. -/
theorem makeDirsFrom_of_way {start : PathRoot} (hclosed : t.Closed) {names : List Text}
    (hp : Path.IsDirect ⟨start, names.reverse⟩) (hshort : Path.IsShort ⟨start, names.reverse⟩)
    (hway : t.Way names.reverse) : ∃ t', makeDirsFrom cwd start names t = (t', none) := by
  induction names with
  | nil =>
    obtain ⟨t', hmake⟩ := makeDir_of_way cwd hclosed hp hshort hway fun hne => absurd rfl hne
    have hmake : t.makeDir cwd ⟨start, []⟩ = .ok t' := hmake
    exact ⟨t', by rw [makeDirsFrom, hmake]⟩
  | cons name names ih =>
    have hparent : Path.parent ⟨start, (name :: names).reverse⟩ = ⟨start, names.reverse⟩ := by simp [Path.parent]
    have hlast : (name :: names).reverse.dropLast = names.reverse := congrArg Path.names hparent
    have hpre : names.reverse <+: (name :: names).reverse := hlast ▸ List.dropLast_prefix _
    rcases hway names.reverse hpre with hnone | hdir
    · -- The system says what is missing first; only then are the directories in front made.
      have hmissing : t.makeDir cwd ⟨start, (name :: names).reverse⟩ =
          .error (.notFound (Path.toText ⟨start, (name :: names).reverse⟩)) := by
        rw [makeDir, locate_missing hp hshort (by simp) (by simpa using hway.front hpre) (by simpa using hnone)]
        rfl
      obtain ⟨made, hmade⟩ := ih (hparent ▸ hp.parent) (hparent ▸ hshort.parent) (hway.front hpre)
      have hentries : t.Made made names.reverse :=
        made_of_makeDirs hclosed (hparent ▸ hp.parent) (by rw [makeDirs, List.reverse_reverse]; exact hmade)
      have hway' : made.Way (name :: names).reverse := fun front hfront => by
        rw [hentries]
        split
        · exact .inr rfl
        · exact hway front hfront
      obtain ⟨t', hmake⟩ := makeDir_of_way cwd (hentries.closed hclosed) hp hshort hway' fun _ => by
        rw [hlast, hentries, if_pos List.prefix_rfl]
      exact ⟨t', by simp only [makeDirsFrom, hmissing, hmade, hmake]⟩
    · obtain ⟨t', hmake⟩ := makeDir_of_way cwd hclosed hp hshort hway fun _ => hlast ▸ hdir
      exact ⟨t', by simp only [makeDirsFrom, hmake]⟩

theorem makeDirs_of_way (hclosed : t.Closed) (hp : p.IsDirect) (hshort : p.IsShort) (hway : t.Way p.names) :
    ∃ t', t.makeDirs cwd p = (t', none) := by
  obtain ⟨start, names⟩ := p
  rw [← List.reverse_reverse names] at hp hshort hway
  exact makeDirsFrom_of_way hclosed hp hshort hway

/-! ## Writing -/

/-- A text can be written to a path. -/
structure Takes (t : Tree) (p : Path) (text : Text) : Prop where
  fit : p.unfit? = none
  room : p.toText.bytes.length + scratchNameExtra ≤ longestPath
  named : p.names ≠ []
  names : ∀ name ∈ p.names, name.bytes.length ≤ longestName
  name : p.name.bytes.length + scratchNameExtra ≤ longestName
  encoded : text.chars?.isSome = true
  way : t.Way p.names.dropLast
  free : t.entry? p.names ≠ some .directory

variable {text : Text}

theorem lacksRoom_iff (hp : p.IsDirect) : LacksRoom cwd p ↔
    longestName < p.name.bytes.length + scratchNameExtra ∨
      longestPath < p.toText.bytes.length + scratchNameExtra := by
  rw [LacksRoom, wholePath, hp.absolute, if_pos rfl, Path.takeStepsUp_of_plain hp.plain]

theorem Takes.isShort (h : t.Takes p text) : p.IsShort := by
  have hroom := h.room
  exact ⟨h.fit, by omega, h.names⟩

/-- What is where when a text has been written. -/
def Wrote (t t' : Tree) (p : Path) (chars : List Char) : Prop :=
  ∀ here, t'.entry? here = if here = p.names then some (.file (.text chars))
    else if here <+: p.names.dropLast then some .directory else t.entry? here

/-- A write that is done is one that the tree takes. -/
theorem takes_of_write (hclosed : t.Closed) (hp : p.IsDirect) (h : t.write cwd p text = (t', none)) :
    t.Takes p text ∧ ∃ chars, text.chars? = some chars ∧ t.Wrote t' p chars := by
  unfold write at h
  cases hdirs : t.makeDirs cwd p.parent with
  | mk made fault =>
    rw [hdirs] at h
    cases fault with
    | some fault => cases h
    | none =>
      simp only at h
      have hmade : t.Made made p.names.dropLast := made_of_makeDirs hclosed hp.parent hdirs
      have hroot : t.RootAt cwd ⟨p.root, []⟩ [] :=
        .inl ⟨List.not_mem_nil, by rw [show Path.isAbsolute ⟨p.root, []⟩ = true from hp.absolute]; rfl⟩
      -- So what is in the way after the directories were made was so before.
      have hlarger : t.Extends made := by
        have hadds : AddsDirectories [] p.names.dropLast t (t.makeDirs cwd p.parent).1 :=
          addsDirectories_makeDirs hroot hp.parent.plain
        rw [hdirs] at hadds
        exact hadds.larger
      cases hreplace : made.replaceFile cwd p text with
      | error fault => rw [hreplace] at h; cases h
      | ok replaced =>
        rw [hreplace] at h
        obtain ⟨rfl, -⟩ := Prod.mk.inj h
        obtain ⟨here, chars, hlocate, hchars, hentry, rfl, hroom, hne, -⟩ := replaceFile_eq_ok.mp hreplace
        obtain ⟨hshort, rfl, -⟩ := (locate_eq_ok_iff (hmade.closed hclosed) hp).mp hlocate
        rw [lacksRoom_iff hp, not_or, Nat.not_lt, Nat.not_lt] at hroom
        refine ⟨⟨hshort.fit, hroom.2, hne, hshort.names, hroom.1, by rw [hchars]; rfl, fun front hfront => ?_,
          fun hdir => hentry (hlarger _ _ hdir)⟩, chars, hchars, fun there => ?_⟩
        · cases hthere : t.entry? front with
          | none => exact .inl rfl
          | some e =>
            have hdir := hmade front
            rw [hlarger _ _ hthere, if_pos hfront] at hdir
            exact .inr hdir
        · by_cases hthere : there = p.names
          · rw [if_pos hthere, hthere, place_entry_self hne]
          · rw [if_neg hthere, place_entry_of_ne hthere, hmade]

/-- What a tree takes is written. -/
theorem Takes.write (h : t.Takes p text) (hclosed : t.Closed) (hp : p.IsDirect) (cwd : Location) :
    ∃ t', t.write cwd p text = (t', none) := by
  obtain ⟨made, hdirs⟩ : ∃ made, t.makeDirs cwd p.parent = (made, none) :=
    makeDirs_of_way hclosed hp.parent h.isShort.parent h.way
  have hmade : t.Made made p.names.dropLast := made_of_makeDirs hclosed hp.parent hdirs
  obtain ⟨chars, hchars⟩ := Option.isSome_iff_exists.mp h.encoded
  have hlocate : made.locate cwd p = .ok p.names :=
    (locate_eq_ok_iff (hmade.closed hclosed) hp).mpr ⟨h.isShort, rfl, fun _ => by rw [hmade, if_pos List.prefix_rfl]⟩
  have hfree : made.entry? p.names ≠ some .directory := by
    have hlonger : ¬p.names <+: p.names.dropLast := fun hpre => by
      have hlength := hpre.length_le
      rw [List.length_dropLast] at hlength
      have hpos := List.length_pos_iff.mpr h.named
      omega
    rw [hmade, if_neg hlonger]
    exact h.free
  have hroom : ¬LacksRoom cwd p := by
    rw [lacksRoom_iff hp, not_or, Nat.not_lt, Nat.not_lt]
    exact ⟨h.name, h.room⟩
  have hname : p.name ≠ parentName := fun heq => hp.plain (heq ▸ p.name_mem h.named)
  have hreplace := replaceFile_eq_ok.mpr ⟨_, chars, hlocate, hchars, hfree, rfl, hroom, h.named, hname⟩
  refine ⟨made.place p.names (.file (.text chars)), ?_⟩
  simp only [Tree.write, hdirs, hreplace]

theorem Wrote.closed {chars : List Char} (h : t.Wrote t' p chars) (htakes : t.Takes p text) (hclosed : t.Closed) :
    t'.Closed := by
  intro here name hentry
  rw [h] at hentry ⊢
  by_cases hlast : here ++ [name] = p.names
  · have hhere : here = p.names.dropLast := by rw [← hlast, List.dropLast_concat]
    have hne : here ≠ p.names := fun heq => by simp [← heq] at hlast
    rw [if_neg hne, if_pos (hhere ▸ List.prefix_rfl)]
  · rw [if_neg hlast] at hentry
    by_cases hfront : here ++ [name] <+: p.names.dropLast
    · have hne : here ≠ p.names := fun heq => by
        have hlength := hfront.length_le
        rw [heq, List.length_append, List.length_singleton, List.length_dropLast] at hlength
        omega
      rw [if_neg hne, if_pos ((List.prefix_append _ _).trans hfront)]
    · rw [if_neg hfront] at hentry
      have hdir := hclosed here name hentry
      have hne : here ≠ p.names := fun heq => htakes.free (heq ▸ hdir)
      rw [if_neg hne, hdir]
      split <;> rfl

end Tree

end Regraft

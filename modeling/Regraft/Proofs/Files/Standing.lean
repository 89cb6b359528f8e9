import Regraft.Proofs.Files.Closed
/-!
# Paths from a directory that is there

A path leads on from a directory that is there (`Tree.Leads`) if it names one first, with whatever steps up, and then
goes on with names that are no steps up. Then it can be told from the entries alone what is seen at its end, whether the
directories on the way are there or not.

* `Tree.Leads.follow`, `Tree.Leads.takeStepsUp`: where such paths lead;
* `Tree.probe_of_leads`, `Tree.read_child`, `Tree.mem_children`: what is seen there.
-/
namespace Regraft

/-- Why the system refuses a path before it looks at what is there. -/
def Path.refusal? (p : Path) : Option FileFault :=
  match p.unfit? with
  | some fault => some fault
  | none => if Tree.longestPath < p.toText.bytes.length then some (.nameTooLong p.toText) else none

theorem Path.refusal?_eq_none {p : Path} :
    p.refusal? = none ↔ p.unfit? = none ∧ p.toText.bytes.length ≤ Tree.longestPath := by
  unfold refusal?
  cases p.unfit? with
  | some fault => simp
  | none => simp

theorem Path.refusal?_parent {p : Path} (h : p.refusal? = none) : p.parent.refusal? = none := by
  obtain ⟨hfit, hshort⟩ := Path.refusal?_eq_none.mp h
  have hbytes := p.bytes_parent
  have hlongest : 1 ≤ Tree.longestPath := by decide
  exact Path.refusal?_eq_none.mpr ⟨p.unfit?_parent hfit, by omega⟩

/-- A path is not refused because nothing is there. -/
theorem Path.refusal?_ne_notFound {p : Path} (path : Text) : p.refusal? ≠ some (.notFound path) := by
  unfold refusal? unfit?
  split
  · rename_i fault hfault
    split at hfault
    · rw [← Option.some.inj hfault]
      simp
    · split at hfault
      · rw [← Option.some.inj hfault]
        simp
      · cases hfault
  · split <;> simp

theorem prefix_iff_dropLast {α : Type} {front here : List α} :
    front <+: here ↔ front = here ∨ front <+: here.dropLast := by
  constructor
  · intro h
    by_cases hnil : here = []
    · exact .inl (by rw [hnil] at h ⊢; exact List.prefix_nil.mp h)
    · rw [← List.dropLast_concat_getLast hnil] at h ⊢
      rw [List.dropLast_concat]
      exact List.prefix_concat_iff.mp h
  · rintro (rfl | h)
    · exact List.prefix_rfl
    · exact h.trans (List.dropLast_prefix here)

namespace Tree

variable {t t' u w : Tree} {cwd here dir place : Location} {p : Path} {path name text : Text} {names : List Text}
  {root : PathRoot}

/-- Where paths with a root start. -/
def startOf (cwd : Location) (root : PathRoot) : Location := if root != .relative then [] else cwd

theorem locate_of_refusal {fault : FileFault} (h : p.refusal? = some fault) : t.locate cwd p = .error fault := by
  unfold Path.refusal? at h
  unfold locate
  cases hfit : p.unfit? with
  | some refusal =>
    rw [hfit] at h
    rw [Option.some.inj h]
  | none =>
    simp only [hfit] at h ⊢
    split at h
    · rename_i hlong
      rw [if_pos hlong, Option.some.inj h]
    · cases h

theorem locate_eq_follow (h : p.refusal? = none) :
    t.locate cwd p = t.follow p.toText (startOf cwd p.root) p.names := by
  obtain ⟨hfit, hshort⟩ := Path.refusal?_eq_none.mp h
  simp only [locate, hfit]
  exact if_neg (Nat.not_lt.mpr hshort)

/-! ## Leading on from a directory -/

/-- Names lead to a location from a directory that is there: the first of them to the directory, and those behind it on
from there, whether anything is there or not. -/
inductive Leads (t : Tree) (cwd : Location) (root : PathRoot) : List Text → Location → Prop where
  | start {names : List Text} {here : Location} (follow : t.follow [] (startOf cwd root) names = .ok here)
      (directory : t.entry? here = some .directory) : Leads t cwd root names here
  | child {names : List Text} {here : Location} {name : Text} (front : Leads t cwd root names here)
      (plain : name ≠ parentName) (short : name.bytes.length ≤ longestName) :
      Leads t cwd root (names ++ [name]) (here ++ [name])

/-- Directories stay where they are. -/
def KeepsDirectories (t t' : Tree) : Prop := ∀ here, t.entry? here = some .directory → t'.entry? here = some .directory

theorem Leads.mono (h : t.Leads cwd root names here) (hkeeps : t.KeepsDirectories t') :
    t'.Leads cwd root names here := by
  induction h with
  | start follow directory => exact .start (follow_of_directories hkeeps _ follow) (hkeeps _ directory)
  | child _ plain short ih => exact .child ih plain short

/-- No name is longer than a name can be. -/
def ShortNames (names : List Text) : Prop := ∀ name ∈ names, name.bytes.length ≤ longestName

instance (names : List Text) : Decidable (ShortNames names) :=
  inferInstanceAs (Decidable (∀ name ∈ names, name.bytes.length ≤ longestName))

theorem Leads.append (h : t.Leads cwd root names here) {back : List Text} (hplain : parentName ∉ back)
    (hshort : ShortNames back) : t.Leads cwd root (names ++ back) (here ++ back) := by
  induction back using List.reverseRecOn with
  | nil => simpa using h
  | append_singleton back last ih =>
    rw [← List.append_assoc, ← List.append_assoc]
    refine .child (ih (fun hmem => hplain (List.mem_append_left _ hmem)) fun name hname =>
      hshort name (List.mem_append_left _ hname)) (fun heq => hplain ?_) (hshort last (by simp))
    rw [← heq]
    simp

/-- A step along a path, from where it is to where a name leads. -/
theorem eq_foldl_of_follow : ∀ {start : Location}, t.follow path start names = .ok here →
    here = names.foldl (fun done name => if name = parentName then done.dropLast else done ++ [name]) start := by
  induction names with
  | nil => exact fun h => (Except.ok.inj h).symm
  | cons name names ih =>
    intro start h
    obtain ⟨-, -, hrest⟩ := follow_cons_eq_ok.mp h
    exact ih hrest

/-- Where names lead is what they come to when every step up is taken. -/
theorem Leads.takeStepsUp (h : t.Leads cwd root names here) (hcwd : parentName ∉ cwd) :
    Path.takeStepsUp (startOf cwd root ++ names) = here := by
  have hstart : parentName ∉ startOf cwd root := by
    unfold startOf
    split
    · exact List.not_mem_nil
    · exact hcwd
  induction h with
  | start follow directory =>
    rw [Path.takeStepsUp, List.foldl_append, ← Path.takeStepsUp, Path.takeStepsUp_of_plain hstart]
    exact (eq_foldl_of_follow follow).symm
  | child _ plain short ih =>
    rw [← List.append_assoc, Path.takeStepsUp, List.foldl_append, ← Path.takeStepsUp, ih, List.foldl_cons,
      List.foldl_nil, if_neg plain]

/-- Names that do not lead anywhere do not lead on. -/
theorem follow_append_of_error {fault : FileFault} {front : List Text} (back : List Text) :
    ∀ {start : Location}, t.follow path start front = .error fault →
      t.follow path start (front ++ back) = .error fault := by
  induction front with
  | nil => exact fun h => nomatch h
  | cons name front ih =>
    intro start h
    rw [follow] at h
    rw [List.cons_append, follow]
    split at h
    · exact h
    · exact h
    · split at h
      · rename_i hlong
        rw [if_pos hlong]
        exact h
      · rename_i hshort
        rw [if_neg hshort]
        exact ih h

theorem Closed.dropLast (h : t.Closed) (hentry : t.entry? here ≠ none) : t.entry? here.dropLast = some .directory := by
  by_cases hnil : here = []
  · rw [hnil]
    rfl
  · rw [← List.dropLast_concat_getLast hnil] at hentry
    exact h _ _ hentry

/-- Names that lead on lead to where they say, if the directory is there. -/
theorem Leads.follow (h : t.Leads cwd root names here) (hclosed : t.Closed) (path : Text)
    (hdir : t.entry? here.dropLast = some .directory) : t.follow path (startOf cwd root) names = .ok here := by
  induction h with
  | start follow directory => exact follow_eq_ok path follow
  | @child names here name _ plain short ih =>
    rw [List.dropLast_concat] at hdir
    rw [follow_append_of_ok _ (ih (hclosed.dropLast (by rw [hdir]; exact Option.some_ne_none _)))]
    exact follow_cons_eq_ok.mpr ⟨hdir, short, by rw [if_neg plain]; rfl⟩

theorem Closed.way (h : t.Closed) (hdir : t.entry? here = some .directory) : t.Way here :=
  fun _ hfront => .inr (h.directory_of_prefix hfront hdir)

theorem way_iff_dropLast :
    t.Way here ↔ (t.entry? here = none ∨ t.entry? here = some .directory) ∧ t.Way here.dropLast := by
  constructor
  · exact fun h => ⟨h here List.prefix_rfl, h.front (List.dropLast_prefix here)⟩
  · rintro ⟨hentry, hway⟩ front hfront
    rcases prefix_iff_dropLast.mp hfront with rfl | hfront
    · exact hentry
    · exact hway front hfront

/-- Names that lead on through a file lead nowhere. -/
theorem Leads.follow_of_not_way (h : t.Leads cwd root names here) (hclosed : t.Closed) (path : Text)
    (hway : ¬t.Way here.dropLast) : t.follow path (startOf cwd root) names = .error (.notADirectory path) := by
  induction h with
  | start follow directory =>
    exact absurd (hclosed.way (hclosed.dropLast (by rw [directory]; exact Option.some_ne_none _))) hway
  | @child names here name front plain short ih =>
    rw [List.dropLast_concat] at hway
    by_cases hfront : t.Way here.dropLast
    · -- The file is right in front of the last name.
      have hentry := fun h => hway (way_iff_dropLast.mpr ⟨h, hfront⟩)
      cases hfile : t.entry? here with
      | none => exact absurd (.inl hfile) hentry
      | some e =>
        cases e with
        | directory => exact absurd (.inr hfile) hentry
        | file content =>
          have hdir := hclosed.dropLast (by rw [hfile]; exact Option.some_ne_none _)
          rw [follow_append_of_ok _ (front.follow hclosed path hdir), Tree.follow, hfile]
    · exact follow_append_of_error _ (ih hfront)

/-- Names that lead on through something missing lead nowhere. -/
theorem Leads.follow_of_way (h : t.Leads cwd root names here) (hclosed : t.Closed) (path : Text)
    (hway : t.Way here.dropLast) (hnone : t.entry? here.dropLast = none) :
    t.follow path (startOf cwd root) names = .error (.notFound path) := by
  induction h with
  | start follow directory =>
    rw [hclosed.dropLast (by rw [directory]; exact Option.some_ne_none _)] at hnone
    cases hnone
  | @child names here name front plain short ih =>
    rw [List.dropLast_concat] at hway hnone
    rcases way_iff_dropLast.mp hway |>.2 here.dropLast List.prefix_rfl with hmissing | hdir
    · exact follow_append_of_error _ (ih (way_iff_dropLast.mp hway).2 hmissing)
    · rw [follow_append_of_ok _ (front.follow hclosed path hdir), Tree.follow, hnone]

/-! ## Looking -/

/-- What is seen at the end of a path is what is there, or nothing. -/
theorem probe_of_leads (h : t.Leads cwd p.root p.names here) (hclosed : t.Closed) (hpath : p.refusal? = none) :
    t.probe cwd p = .ok ((t.entry? here).map Entry.kind) := by
  rw [probe, locate_eq_follow hpath]
  by_cases hdir : t.entry? here.dropLast = some .directory
  · rw [h.follow hclosed _ hdir]
  · have hnone : t.entry? here = none := Decidable.byContradiction fun hentry => hdir (hclosed.dropLast hentry)
    rw [hnone]
    by_cases hway : t.Way here.dropLast
    · rw [h.follow_of_way hclosed _ hway ((hway _ List.prefix_rfl).resolve_right hdir)]
      rfl
    · rw [h.follow_of_not_way hclosed _ hway]
      rfl

theorem probe_of_refusal (h : p.refusal? ≠ none) (t t' : Tree) (cwd : Location) : t.probe cwd p = t'.probe cwd p := by
  obtain ⟨fault, hfault⟩ := Option.ne_none_iff_exists'.mp h
  rw [probe, probe, locate_of_refusal hfault, locate_of_refusal hfault]
  cases fault <;> rfl

theorem refusal?_of_probe {kind : EntryKind} (h : t.probe cwd p = .ok (some kind)) : p.refusal? = none := by
  cases hrefusal : p.refusal? with
  | none => rfl
  | some fault =>
    rw [probe, locate_of_refusal hrefusal] at h
    cases fault <;> cases h

/-- Where a path in a directory leads. -/
theorem locate_child {p : Path} (h : t.Leads cwd p.root p.names dir) (hclosed : t.Closed)
    (hdir : t.entry? dir = some .directory) (hplain : name ≠ parentName) : t.locate cwd (p.child name) =
      match (p.child name).refusal? with
      | some fault => .error fault
      | none => if longestName < name.bytes.length then .error (.nameTooLong (p.child name).toText)
        else .ok (dir ++ [name]) := by
  cases hrefusal : (p.child name).refusal? with
  | some fault => exact locate_of_refusal hrefusal
  | none =>
    have hfront := h.follow hclosed (p.child name).toText (hclosed.dropLast (by rw [hdir]; exact Option.some_ne_none _))
    rw [locate_eq_follow hrefusal]
    change t.follow _ (startOf cwd p.root) (p.names ++ [name]) = _
    rw [follow_append_of_ok _ hfront, Tree.follow, hdir]
    simp only [if_neg hplain]
    rfl

/-- The same is read from what is the same in two trees. -/
theorem read_child {p : Path} (hu : u.Leads cwd p.root p.names dir) (hw : w.Leads cwd p.root p.names dir)
    (hclosed : u.Closed) (hclosed' : w.Closed) (hplain : name ≠ parentName)
    (hsame : u.entry? (dir ++ [name]) = w.entry? (dir ++ [name])) (hentry : u.entry? (dir ++ [name]) ≠ none) :
    u.read cwd (p.child name) = w.read cwd (p.child name) := by
  rw [Tree.read, Tree.read, locate_child hu hclosed (hclosed _ _ hentry) hplain,
    locate_child hw hclosed' (hclosed' _ _ (hsame ▸ hentry)) hplain]
  cases (p.child name).refusal? with
  | some fault => rfl
  | none =>
    by_cases hlong : longestName < name.bytes.length
    · simp only [if_pos hlong]
      rfl
    · simp only [if_neg hlong, bind, Except.bind, hsame]

end Tree

end Regraft

import Regraft.Store.Key
import Regraft.Proofs.Files.Path
import Regraft.Proofs.Number.Digits
/-!
# Keys and the names of artifacts

A key is a row of names with slashes between them (`KeyNames`), and the path it writes leads over just these names
(`KeyNames.ofText`). The artifact of a version stands beside the file that the key names. Its name tells the target and
the number of the version (`artifactTarget?_artifactFile`, `KeyNames.artifactNames_inj`), whatever points the target's
own name has and however many digits the number takes.
-/
namespace Regraft

/-! ## Keys -/

/-- The names that a key is made of. -/
structure KeyNames (key : Text) (names : List Text) : Prop where
  ne_nil : names ≠ []
  isName : ∀ name ∈ names, IsName name
  noParent : parentName ∉ names
  written : key = joinWith ['/'] names

/-- A key is made of the names in what it is the key of. -/
theorem keyNames_of_keyOf {given key : Text} (h : keyOf given = .ok key) :
    KeyNames key (Path.namesOf (strip (replaceChar '\\' '/' given))) := by
  unfold keyOf checkKey at h
  split at h
  · cases h
  · rename_i hbelow
    split at h
    · cases h
    · rename_i hnames
      obtain ⟨hrelative, hparent⟩ := not_or.mp hbelow
      generalize strip (replaceChar '\\' '/' given) = t at h hrelative hparent hnames
      refine ⟨hnames, fun name hname => Path.isName_of_mem_namesOf hname, hparent, ?_⟩
      have hpath : Path.ofText t = Path.ofNames (Path.namesOf t) := by
        have hroot : Path.rootOf t = .relative := by
          simpa [Path.isAbsolute, Path.ofText] using hrelative
        rw [Path.ofText, hroot]
        rfl
      rw [← Except.ok.inj h, hpath]
      exact Path.toText_ofNames hnames fun name hname => Path.isName_of_mem_namesOf hname

theorem exists_keyNames {given key : Text} (h : keyOf given = .ok key) : ∃ names, KeyNames key names :=
  ⟨_, keyNames_of_keyOf h⟩

namespace KeyNames

variable {key other : Text} {names others : List Text}

/-- The path that a key writes. -/
theorem ofText (h : KeyNames key names) : Path.ofText key = Path.ofNames names := by
  rw [h.written, Path.ofText_joinWith h.ne_nil h.isName]

theorem names_eq (h : KeyNames key names) (h' : KeyNames key others) : names = others := by
  have hpath := h.ofText.symm.trans h'.ofText
  exact congrArg Path.names hpath

theorem key_eq (h : KeyNames key names) (h' : KeyNames other names) : key = other :=
  h.written.trans h'.written.symm

end KeyNames

/-! ## Artifacts -/

/-- The file name of a version of a target with a name. -/
def artifactFile (name : Text) (order : Nat) : Text :=
  name ++ char '.' :: showPadded orderWidth order ++ artifactSuffix

/-- The names on the way to the artifact of a version. -/
def artifactNames (names : List Text) (order : Nat) : List Text :=
  names.dropLast ++ [artifactFile (names.getLastD []) order]

theorem cut?_append {p : CodePoint → Bool} {t rest : Text} {c : CodePoint} (ht : ∀ d ∈ t, p d = false)
    (hc : p c = true) : cut? p (t ++ c :: rest) = some (t, rest) := by
  induction t with
  | nil => simp [cut?, hc]
  | cons d t ih =>
    have hd : p d = false := ht d List.mem_cons_self
    simp [cut?, hd, ih fun e he => ht e (List.mem_cons_of_mem _ he)]

/-- The last point before the ending of an artifact's name is the one in front of the number. -/
theorem cut?_reverse_number (name : Text) (order : Nat) :
    cut? (· == '.') (name ++ char '.' :: showPadded orderWidth (order : Int)).reverse =
      some ((showPadded orderWidth (order : Int)).reverse, name.reverse) := by
  rw [List.reverse_append, List.reverse_cons, List.append_assoc, List.singleton_append]
  refine cut?_append (fun c hc => beq_false_of_ne ?_) rfl
  rintro rfl
  cases isDigit_of_mem_showPadded (List.mem_reverse.mp hc)

theorem artifactTarget?_eq (name : Text) (order : Nat) :
    artifactTarget? (artifactFile name order) = if name.isEmpty || name.contains '\n' then none else some name := by
  have hstem : before? artifactSuffix (artifactFile name order) =
      some (name ++ char '.' :: showPadded orderWidth order) := by
    rw [before?, artifactFile, List.reverse_append, after?_append, Option.map_some, List.reverse_reverse]
  have hsome : (showPadded orderWidth (order : Int)).isEmpty = false := by
    simpa using showPadded_ne_nil orderWidth order
  have hall : (showPadded orderWidth (order : Int)).all isDecimalDigit = true :=
    List.all_eq_true.mpr fun c hc => isDecimalDigit_of_isDigit (isDigit_of_mem_showPadded hc)
  simp only [artifactTarget?, hstem, cut?_reverse_number, bind, Option.bind]
  simp [hsome, hall]

/-- The name of an artifact tells the name of its target. -/
theorem artifactTarget?_artifactFile {name : Text} (hne : name ≠ []) (hline : char '\n' ∉ name) (order : Nat) :
    artifactTarget? (artifactFile name order) = some name := by
  rw [artifactTarget?_eq, if_neg]
  simp [hne, hline]

/-- It tells no other name. -/
theorem eq_of_artifactTarget? {name other : Text} {order : Nat}
    (h : artifactTarget? (artifactFile name order) = some other) : name = other := by
  rw [artifactTarget?_eq] at h
  split at h
  · cases h
  · exact Option.some.inj h

/-- A file holds a version of one target, and a version of one number. -/
theorem artifactFile_inj {name other : Text} {m n : Nat} (h : artifactFile name m = artifactFile other n) :
    name = other ∧ m = n := by
  have hstem := List.append_cancel_right h
  have hcut := cut?_reverse_number name m
  rw [hstem, cut?_reverse_number other n] at hcut
  obtain ⟨hnumber, hname⟩ := Prod.mk.inj (Option.some.inj hcut)
  exact ⟨(List.reverse_inj.mp hname).symm, (showPadded_inj (List.reverse_inj.mp hnumber)).symm⟩

theorem isName_artifactFile {name : Text} (h : IsName name) (order : Nat) : IsName (artifactFile name order) := by
  have hslash : char '/' ∉ artifactSuffix := by decide
  have hdigits : char '/' ∉ showPadded orderWidth (order : Int) := fun hmem => by
    cases isDigit_of_mem_showPadded hmem
  obtain ⟨c, t, rfl⟩ := List.exists_cons_of_ne_nil h.ne_nil
  refine ⟨by simp [artifactFile], by simp [artifactFile], ?_⟩
  simp only [artifactFile, List.mem_append, List.mem_cons, not_or]
  exact ⟨⟨by simpa using h.noSlash, by decide, hdigits⟩, hslash⟩

namespace KeyNames

variable {key other : Text} {names others : List Text}

theorem last_mem (h : KeyNames key names) : names.getLastD [] ∈ names := by
  rw [List.getLastD_eq_getLast?, List.getLast?_eq_some_getLast h.ne_nil]
  exact List.getLast_mem h.ne_nil

theorem dropLast_append (h : KeyNames key names) : names.dropLast ++ [names.getLastD []] = names := by
  rw [List.getLastD_eq_getLast?, List.getLast?_eq_some_getLast h.ne_nil]
  exact List.dropLast_concat_getLast h.ne_nil

theorem isName_artifactNames (h : KeyNames key names) (order : Nat) : ∀ name ∈ artifactNames names order, IsName name := by
  intro name hname
  rcases List.mem_append.mp hname with hname | hname
  · exact h.isName name (List.dropLast_subset names hname)
  · rw [List.mem_singleton.mp hname]
    exact isName_artifactFile (h.isName _ h.last_mem) order

theorem parentName_not_mem_artifactNames (h : KeyNames key names) (order : Nat) :
    parentName ∉ artifactNames names order := by
  intro hmem
  rcases List.mem_append.mp hmem with hmem | hmem
  · exact h.noParent (List.dropLast_subset names hmem)
  · have hlen := congrArg List.length (List.mem_singleton.mp hmem)
    have hsuffix : artifactSuffix.length = 11 := by decide
    simp only [artifactFile, List.length_append, hsuffix, parentName, List.length_cons, List.length_nil] at hlen
    omega

/-- The path to the artifact of a version. -/
theorem ofText_artifactName (h : KeyNames key names) (order : Nat) :
    Path.ofText (artifactName key order) = Path.ofNames (artifactNames names order) := by
  have hwritten : artifactName key order = joinWith ['/'] (artifactNames names order) := by
    have hkey : key = joinWith ['/'] (names.dropLast ++ [names.getLastD []]) := by
      rw [h.dropLast_append, ← h.written]
    rw [artifactName, hkey, List.append_assoc, joinWith_concat_append]
    simp only [artifactNames, artifactFile, List.append_assoc]
  rw [hwritten, Path.ofText_joinWith (by simp [artifactNames]) (h.isName_artifactNames order)]

/-- Different versions have different artifacts. -/
theorem artifactNames_inj (h : KeyNames key names) (h' : KeyNames other others) {m n : Nat}
    (heq : artifactNames names m = artifactNames others n) : key = other ∧ m = n := by
  obtain ⟨hdir, hfile⟩ := List.append_inj' heq rfl
  obtain ⟨hlast, hnumber⟩ := artifactFile_inj (List.singleton_inj.mp hfile)
  have hnames : names = others := by
    rw [← h.dropLast_append, ← h'.dropLast_append, hdir, hlast]
  subst hnames
  exact ⟨h.key_eq h', hnumber⟩

end KeyNames

end Regraft

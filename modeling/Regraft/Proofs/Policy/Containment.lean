import Regraft.Policy.Scope
import Regraft.Proofs.Files.Path
/-!
# Scopes around paths

A path is within another one exactly when the names of the other one are its first names (`IsAround`, `isWithin_iff`). So
the paths around one path lie within each other: the shorter one of two is around the longer one (`isWithin_of_length_le`), and
among paths in the form of scopes, the one with fewer names (`isWithin_of_depth_le`).
-/
namespace Regraft

variable {path outer a b : Text}

/-! ## Containment by names -/

theorem isWithin_iff_append : isWithin path outer = true ↔
    outer = [] ∨ path = outer ∨ ∃ rest, path = outer ++ char '/' :: rest := by
  simp only [isWithin, Bool.or_eq_true, List.isEmpty_iff, beq_iff_eq, startsWith, Option.isSome_iff_exists,
    after?_eq_some_iff, List.append_assoc, List.singleton_append, or_assoc]

/-- The empty path is around every path, any other one around those whose first names are its names. -/
def IsAround (outer path : Text) : Prop := outer = [] ∨ fields (char '/') outer <+: fields (char '/') path

/-- A path is within those around it. -/
theorem isWithin_iff : isWithin path outer = true ↔ IsAround outer path := by
  rw [isWithin_iff_append, IsAround]
  refine or_congr_right ⟨?_, ?_⟩
  · rintro (rfl | ⟨rest, rfl⟩)
    · exact List.prefix_rfl
    · rw [fields_append]
      exact List.prefix_append _ _
  · rintro ⟨more, hmore⟩
    have hpath := joinWith_fields (char '/') path
    rw [← hmore] at hpath
    by_cases hnil : more = []
    · rw [hnil, List.append_nil, joinWith_fields] at hpath
      exact .inl hpath.symm
    · rw [joinWith_append (fields_ne_nil _ _) hnil, joinWith_fields, List.append_assoc] at hpath
      exact .inr ⟨_, hpath.symm⟩

@[simp] theorem isWithin_nil (path : Text) : isWithin path [] = true := by
  rw [isWithin_iff]
  exact .inl rfl

@[simp] theorem isWithin_self (path : Text) : isWithin path path = true := by
  rw [isWithin_iff]
  exact .inr List.prefix_rfl

theorem isWithin_nil_iff : isWithin [] outer = true ↔ outer = [] := by
  rw [isWithin_iff_append]
  constructor
  · rintro (rfl | rfl | ⟨rest, hrest⟩)
    · rfl
    · rfl
    · exact (List.append_eq_nil_iff.mp hrest.symm).1
  · exact .inl

theorem isWithin_trans (hab : isWithin a b = true) (hpa : isWithin path a = true) : isWithin path b = true := by
  rcases isWithin_iff.mp hab with rfl | hab'
  · exact isWithin_nil path
  · rcases isWithin_iff.mp hpa with rfl | hpa
    · rw [isWithin_nil_iff.mp hab]
      exact isWithin_nil path
    · exact isWithin_iff.mpr (.inr (hab'.trans hpa))

/-- A path around another one is shorter than it. -/
theorem eq_or_length_lt (h : isWithin path outer = true) : path = outer ∨ outer.length < path.length := by
  rw [isWithin_iff_append] at h
  rcases h with rfl | rfl | ⟨rest, rfl⟩
  · exact (Decidable.em (path = [])).imp id List.length_pos_iff.mpr
  · exact .inl rfl
  · right
    rw [List.length_append, List.length_cons]
    omega

/-- Of two paths around a path, the shorter one is around the longer one. -/
theorem isWithin_of_length_le (ha : isWithin path a = true) (hb : isWithin path b = true) (h : a.length ≤ b.length) :
    isWithin b a = true := by
  rcases isWithin_iff.mp ha with rfl | ha'
  · exact isWithin_nil b
  rcases isWithin_iff.mp hb with rfl | hb'
  · rw [List.length_eq_zero_iff.mp (Nat.le_zero.mp h)]
    exact isWithin_self []
  rcases List.prefix_or_prefix_of_prefix ha' hb' with hab | hba
  · exact isWithin_iff.mpr (.inr hab)
  · rcases eq_or_length_lt (isWithin_iff.mpr (.inr hba)) with rfl | hlt
    · exact isWithin_self _
    · omega

/-! ## The form of scope paths -/

/-- A path in the form of scopes: empty, the name for "here", or names with slashes between them. -/
inductive IsScopePath : Text → Prop where
  | root : IsScopePath []
  | here : IsScopePath [char '.']
  | names (names : List Text) (ne_nil : names ≠ []) (isName : ∀ name ∈ names, IsName name) :
      IsScopePath (joinWith [char '/'] names)

theorem isScopePath_scopePath (raw : Text) : IsScopePath (scopePath raw) := by
  simp only [scopePath]
  generalize hcleaned : trimWhile (· == '/') (replaceChar '\\' '/' (strip raw)) = cleaned
  have hrelative : Path.rootOf cleaned = .relative :=
    Path.rootOf_of_head? fun hhead => by
      rw [← hcleaned] at hhead
      simpa using head?_trimWhile _ _ hhead
  cases hempty : cleaned.isEmpty with
  | true => exact .root
  | false =>
    simp only [Bool.false_eq_true, if_false, Path.ofText, hrelative]
    by_cases hnames : Path.namesOf cleaned = []
    · rw [hnames]
      exact .here
    · have hisName : ∀ name ∈ Path.namesOf cleaned, IsName name := fun _ => Path.isName_of_mem_namesOf
      have htext := Path.toText_ofNames hnames hisName
      rw [Path.ofNames] at htext
      rw [htext]
      exact .names _ hnames hisName

/-- The depth of a path of names is their number. -/
theorem scopeDepth_joinWith {names : List Text} (hne : names ≠ []) (h : ∀ name ∈ names, IsName name) :
    scopeDepth (joinWith [char '/'] names) = names.length := by
  have hjoined : joinWith [char '/'] names ≠ [] := by
    intro hnil
    have hfields := Path.fields_joinWith hne h
    rw [hnil] at hfields
    exact (h [] (hfields ▸ List.mem_singleton_self [])).ne_nil rfl
  rw [scopeDepth, if_neg (by simpa using hjoined), Path.ofText_joinWith hne h, Path.ofNames]

/-- A path around another one has fewer names. -/
theorem scopeDepth_lt (ha : IsScopePath a) (hb : IsScopePath b) (hwithin : isWithin a b = true) (hne : a ≠ b)
    (hroot : b ≠ []) : scopeDepth b < scopeDepth a := by
  have hfields := (isWithin_iff.mp hwithin).resolve_left hroot
  cases ha with
  | root => exact absurd (isWithin_nil_iff.mp hwithin) hroot
  | here =>
    cases hb with
    | root => exact absurd rfl hroot
    | here => exact absurd rfl hne
    | names others hnil hothers =>
      rw [Path.fields_joinWith hnil hothers] at hfields
      obtain ⟨first, rest, rfl⟩ := List.exists_cons_of_ne_nil hnil
      have hfirst : first ∈ fields (char '/') [char '.'] := hfields.subset List.mem_cons_self
      exact absurd (List.mem_singleton.mp hfirst) (hothers first List.mem_cons_self).ne_here
  | names names hnil hnames =>
    rw [Path.fields_joinWith hnil hnames] at hfields
    cases hb with
    | root => exact absurd rfl hroot
    | here => exact absurd rfl (hnames [char '.'] (hfields.subset (List.mem_singleton_self _))).ne_here
    | names others hnil' hothers =>
      rw [Path.fields_joinWith hnil' hothers] at hfields
      rw [scopeDepth_joinWith hnil hnames, scopeDepth_joinWith hnil' hothers]
      refine Nat.lt_of_le_of_ne hfields.length_le fun hlength => hne ?_
      rw [hfields.eq_of_length hlength]

/-- Of two paths around a path, the one with fewer names is around the one with more. -/
theorem isWithin_of_depth_le (hb : IsScopePath b) (ha : IsScopePath a) (hpa : isWithin path a = true)
    (hpb : isWithin path b = true) (hroot : b ≠ []) (h : scopeDepth a ≤ scopeDepth b) : isWithin b a = true := by
  rcases Nat.le_total a.length b.length with hle | hle
  · exact isWithin_of_length_le hpa hpb hle
  · have hab := isWithin_of_length_le hpb hpa hle
    by_cases heq : a = b
    · subst heq
      exact isWithin_self a
    · exact absurd (scopeDepth_lt ha hb hab heq hroot) (Nat.not_lt.mpr h)

end Regraft

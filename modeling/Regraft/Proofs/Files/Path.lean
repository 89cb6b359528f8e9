import Regraft.Files.Path
/-!
# Written paths

The names in a written path are those between its slashes (`Path.namesOf_joinWith`), and a path that starts nowhere is
read from what it is written as (`Path.ofText_joinWith`, `Path.toText_ofNames`).
-/
namespace Regraft

/-- A name that a written path keeps: not empty, not the name for "here", and without slashes. -/
structure IsName (name : Text) : Prop where
  ne_nil : name ≠ []
  ne_here : name ≠ [char '.']
  noSlash : char '/' ∉ name

section
variable {sep : CodePoint} {t rest : Text}

theorem fields_ne_nil (sep : CodePoint) (t : Text) : fields sep t ≠ [] := by
  induction t with
  | nil => exact List.cons_ne_nil _ _
  | cons c t ih =>
    obtain ⟨f, fs, hfields⟩ := List.exists_cons_of_ne_nil ih
    rw [fields_cons hfields]
    split <;> simp

/-- No piece between separators holds one. -/
theorem not_mem_of_mem_fields : ∀ f ∈ fields sep t, sep ∉ f := by
  induction t with
  | nil => exact List.forall_mem_singleton.mpr List.not_mem_nil
  | cons c t ih =>
    obtain ⟨f, fs, hfields⟩ := List.exists_cons_of_ne_nil (fields_ne_nil sep t)
    rw [hfields] at ih
    rw [fields_cons hfields]
    have hfirst := ih f List.mem_cons_self
    split
    · rename_i hc
      intro g hg
      rcases List.mem_cons.mp hg with rfl | hg
      · exact List.not_mem_nil
      · exact ih g hg
    · rename_i hc
      intro g hg
      rcases List.mem_cons.mp hg with rfl | hg
      · exact fun hmem => (List.mem_cons.mp hmem).elim (fun heq => hc heq.symm) hfirst
      · exact ih g (List.mem_cons_of_mem _ hg)

theorem fields_of_not_mem (h : sep ∉ t) : fields sep t = [t] := by
  induction t with
  | nil => rfl
  | cons c t ih =>
    obtain ⟨hc, ht⟩ := not_or.mp (mt List.mem_cons.mpr h)
    rw [fields_cons (ih ht), if_neg (Ne.symm hc)]

theorem fields_append_sep (h : sep ∉ t) : fields sep (t ++ sep :: rest) = t :: fields sep rest := by
  induction t with
  | nil =>
    obtain ⟨f, fs, hfields⟩ := List.exists_cons_of_ne_nil (fields_ne_nil sep rest)
    rw [List.nil_append, fields_cons hfields, if_pos rfl, hfields]
  | cons c t ih =>
    obtain ⟨hc, ht⟩ := not_or.mp (mt List.mem_cons.mpr h)
    rw [List.cons_append, fields_cons (ih ht), if_neg (Ne.symm hc)]

/-- A separator cuts the pieces of what is before it from those of what is behind it. -/
theorem fields_append (sep : CodePoint) (t rest : Text) :
    fields sep (t ++ sep :: rest) = fields sep t ++ fields sep rest := by
  induction t with
  | nil => exact fields_append_sep List.not_mem_nil
  | cons c t ih =>
    obtain ⟨f, fs, hfields⟩ := List.exists_cons_of_ne_nil (fields_ne_nil sep t)
    rw [hfields, List.cons_append] at ih
    rw [List.cons_append, fields_cons ih, fields_cons hfields]
    split <;> rfl

theorem joinWith_append {sep : Text} {front back : List Text} (hfront : front ≠ []) (hback : back ≠ []) :
    joinWith sep (front ++ back) = joinWith sep front ++ sep ++ joinWith sep back := by
  induction front with
  | nil => exact absurd rfl hfront
  | cons t front ih =>
    cases front with
    | nil =>
      obtain ⟨u, back, rfl⟩ := List.exists_cons_of_ne_nil hback
      rfl
    | cons u front =>
      have hrest := ih (List.cons_ne_nil u front)
      simp only [List.cons_append, joinWith_cons_cons, List.append_assoc] at hrest ⊢
      rw [hrest]

/-- The pieces between separators, put together again. -/
theorem joinWith_fields (sep : CodePoint) (t : Text) : joinWith [sep] (fields sep t) = t := by
  induction t with
  | nil => rfl
  | cons c t ih =>
    obtain ⟨f, fs, hfields⟩ := List.exists_cons_of_ne_nil (fields_ne_nil sep t)
    rw [hfields] at ih
    rw [fields_cons hfields]
    split
    · rename_i hc
      rw [joinWith_cons_cons, ih, hc]
      rfl
    · cases fs with
      | nil => exact congrArg (c :: ·) ih
      | cons g fs => exact congrArg (c :: ·) ih

/-- Pieces without separators come back when they were put together with separators. -/
theorem fields_joinWith_sep {pieces : List Text} (hne : pieces ≠ []) (h : ∀ piece ∈ pieces, sep ∉ piece) :
    fields sep (joinWith [sep] pieces) = pieces := by
  obtain ⟨piece, pieces, rfl⟩ := List.exists_cons_of_ne_nil hne
  clear hne
  induction pieces generalizing piece with
  | nil => exact fields_of_not_mem (h piece List.mem_cons_self)
  | cons other pieces ih =>
    rw [joinWith_cons_cons, List.append_assoc, List.singleton_append, fields_append_sep (h piece List.mem_cons_self)]
    exact congrArg (piece :: ·) (ih other fun n hn => h n (List.mem_cons_of_mem _ hn))

end

namespace Path

/-- The names of a written path. -/
theorem isName_of_mem_namesOf {t name : Text} (h : name ∈ namesOf t) : IsName name := by
  obtain ⟨hmem, hkept⟩ := List.mem_filter.mp h
  simp only [Bool.and_eq_true, Bool.not_eq_true', bne_iff_ne] at hkept
  exact ⟨by simpa using hkept.1, hkept.2, not_mem_of_mem_fields name hmem⟩

/-- Between slashes stand the names that were put together with them. -/
theorem fields_joinWith {names : List Text} (hne : names ≠ []) (h : ∀ name ∈ names, IsName name) :
    fields (char '/') (joinWith ['/'] names) = names :=
  fields_joinWith_sep hne fun name hname => (h name hname).noSlash

/-- Names with slashes between them are read as these names. -/
theorem namesOf_joinWith {names : List Text} (h : ∀ name ∈ names, IsName name) :
    namesOf (joinWith ['/'] names) = names := by
  by_cases hne : names = []
  · subst hne
    rfl
  · rw [namesOf, fields_joinWith hne h]
    exact List.filter_eq_self.mpr fun name hname => by simp [(h name hname).ne_nil, (h name hname).ne_here]

theorem head?_joinWith {name : Text} {names : List Text} (h : name ≠ []) :
    (joinWith ['/'] (name :: names)).head? = name.head? := by
  obtain ⟨c, t, rfl⟩ := List.exists_cons_of_ne_nil h
  cases names <;> rfl

theorem rootOf_of_head? {t : Text} (h : t.head? ≠ some (char '/')) : rootOf t = .relative := by
  unfold rootOf
  split <;> first | rfl | exact absurd rfl h

/-- A path of names in writing is read as this path. -/
theorem ofText_joinWith {names : List Text} (hne : names ≠ []) (h : ∀ name ∈ names, IsName name) :
    ofText (joinWith ['/'] names) = ofNames names := by
  obtain ⟨name, rest, rfl⟩ := List.exists_cons_of_ne_nil hne
  have hname := h name List.mem_cons_self
  have hroot : rootOf (joinWith ['/'] (name :: rest)) = .relative := by
    refine rootOf_of_head? ?_
    rw [head?_joinWith hname.ne_nil]
    exact fun heq => hname.noSlash (List.mem_of_mem_head? heq)
  rw [ofText, hroot, namesOf_joinWith h]
  rfl

/-- A path that starts nowhere is written as its names. -/
theorem toText_ofNames {names : List Text} (hne : names ≠ []) (h : ∀ name ∈ names, IsName name) :
    (ofNames names).toText = joinWith ['/'] names := by
  obtain ⟨name, rest, rfl⟩ := List.exists_cons_of_ne_nil hne
  have hname := h name List.mem_cons_self
  have hwritten : joinWith ['/'] (name :: rest) ≠ [] := by
    intro hnil
    have hhead : (joinWith ['/'] (name :: rest)).head? = name.head? := head?_joinWith hname.ne_nil
    rw [hnil] at hhead
    exact hname.ne_nil (List.head?_eq_none_iff.mp hhead.symm)
  simp [toText, ofNames, hwritten]

end Path

/-- Joined names hold the characters of each of them. -/
theorem mem_joinWith {sep name : Text} {names : List Text} {c : CodePoint} (hc : c ∈ name) (hname : name ∈ names) :
    c ∈ joinWith sep names := by
  induction names with
  | nil => cases hname
  | cons first names ih =>
    cases names with
    | nil =>
      rw [List.mem_singleton.mp hname] at hc
      exact hc
    | cons other names =>
      rw [joinWith_cons_cons]
      rcases List.mem_cons.mp hname with rfl | hname
      · exact List.mem_append_left _ (List.mem_append_left _ hc)
      · exact List.mem_append_right _ (ih hname)

/-- Joined names hold no other characters but those between them. -/
theorem exists_of_mem_joinWith {sep : Text} {names : List Text} {c : CodePoint} (h : c ∈ joinWith sep names) :
    c ∈ sep ∨ ∃ name ∈ names, c ∈ name := by
  induction names with
  | nil => cases h
  | cons name names ih =>
    cases names with
    | nil => exact .inr ⟨name, List.mem_cons_self, h⟩
    | cons other names =>
      rw [joinWith_cons_cons, List.mem_append, List.mem_append] at h
      rcases h with (hname | hsep) | hrest
      · exact .inr ⟨name, List.mem_cons_self, hname⟩
      · exact .inl hsep
      · rcases ih hrest with hsep | ⟨n, hn, hc⟩
        · exact .inl hsep
        · exact .inr ⟨n, List.mem_cons_of_mem _ hn, hc⟩

/-- Some of the pieces, put together, are a part of all of them. -/
theorem joinWith_sublist {sep : Text} {few many : List Text} (h : few.Sublist many) :
    (joinWith sep few).Sublist (joinWith sep many) := by
  induction h with
  | slnil => exact List.Sublist.refl _
  | @cons few many t _ ih =>
    cases many with
    | nil => exact ih.trans (List.nil_sublist _)
    | cons u many => exact ih.trans (List.sublist_append_right _ _)
  | @cons_cons few many t h ih =>
    match few, many, h with
    | [], [], _ => exact List.Sublist.refl _
    | [], _ :: _, _ => exact (List.sublist_append_left t sep).trans (List.sublist_append_left _ _)
    | _ :: _, _ :: _, _ => exact (List.Sublist.refl (t ++ sep)).append ih

theorem joinWith_concat_append (sep t last : Text) (names : List Text) :
    joinWith sep (names ++ [last]) ++ t = joinWith sep (names ++ [last ++ t]) := by
  induction names with
  | nil => rfl
  | cons name names ih =>
    cases names with
    | nil => exact List.append_assoc _ _ _
    | cons other names =>
      simp only [List.cons_append, joinWith_cons_cons, List.append_assoc] at ih ⊢
      rw [ih]

end Regraft

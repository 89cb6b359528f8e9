import Regraft.Proofs.Fallible
import Regraft.Proofs.Files.Closed
import Regraft.Proofs.Policy.Origins
import Regraft.Proofs.Text.Scan
/-!
# Where rules send paths

A destination is put together from the path, the scopes around it and the target of a remapping. So it is relative, and its
names are names of the path or of that target (`RuleSet.leadsOver_destination`).
-/
namespace Regraft

/-! ## Names of parts -/

namespace Path

theorem namesOf_append (t rest : Text) : namesOf (t ++ char '/' :: rest) = namesOf t ++ namesOf rest := by
  rw [namesOf, fields_append, List.filter_append, namesOf, namesOf]

theorem namesOf_cons (t : Text) : namesOf (char '/' :: t) = namesOf t := namesOf_append [] t

theorem namesOf_dropWhile (t : Text) : namesOf (t.dropWhile (· == '/')) = namesOf t := by
  induction t with
  | nil => rfl
  | cons c t ih =>
    by_cases hc : c = char '/'
    · subst hc
      exact ih.trans (namesOf_cons t).symm
    · rw [List.dropWhile_cons_of_neg (by simpa using hc)]

theorem namesOf_dropEndWhile (t : Text) : namesOf (dropEndWhile (· == '/') t) = namesOf t := by
  induction t using List.reverseRecOn with
  | nil => rfl
  | append_singleton t c ih =>
    by_cases hc : c = char '/'
    · subst hc
      rw [dropEndWhile_concat_of_pos rfl, ih, namesOf_append]
      exact (List.append_nil _).symm
    · rw [dropEndWhile_concat_of_neg (by simpa using hc)]

/-- Slashes at the ends of a path make no difference to its names. -/
theorem namesOf_trimWhile (t : Text) : namesOf (trimWhile (· == '/') t) = namesOf t :=
  (namesOf_dropEndWhile _).trans (namesOf_dropWhile t)

end Path

/-- A written path starts nowhere, and its names are of a kind. -/
structure LeadsOver (P : Text → Prop) (t : Text) : Prop where
  relative : t.head? ≠ some (char '/')
  names : ∀ name ∈ Path.namesOf t, P name

section
variable {P : Text → Prop} {path old new base a b t : Text}

theorem LeadsOver.isAbsolute (h : LeadsOver P t) : (Path.ofText t).isAbsolute = false := by
  rw [Path.ofText, Path.rootOf_of_head? h.relative]
  rfl

theorem leadsOver_nil : LeadsOver P [] := ⟨by simp, fun name h => by cases h⟩

/-- A name without slashes leads over itself at most. -/
theorem leadsOver_of_noSlash (hslash : char '/' ∉ t) (h : t ≠ [] → P t) : LeadsOver P t := by
  refine ⟨fun hhead => hslash (List.mem_of_mem_head? hhead), fun name hname => ?_⟩
  obtain ⟨hmem, hkept⟩ := List.mem_filter.mp hname
  rw [fields_of_not_mem hslash] at hmem
  obtain rfl := List.mem_singleton.mp hmem
  exact h fun hnil => by simp [hnil] at hkept

theorem LeadsOver.join (ha : LeadsOver P a) (hb : LeadsOver P b) : LeadsOver P (joinParts [a, b]) := by
  cases hea : a.isEmpty with
  | true => cases heb : b.isEmpty <;> simp_all [joinParts, joinWith, leadsOver_nil]
  | false =>
    cases heb : b.isEmpty with
    | true => simpa [joinParts, joinWith, hea, heb] using ha
    | false =>
      have hjoin : joinParts [a, b] = a ++ char '/' :: b := by simp [joinParts, joinWith, hea, heb]
      rw [hjoin]
      refine ⟨?_, fun name hname => ?_⟩
      · obtain ⟨c, t, rfl⟩ := List.exists_cons_of_ne_nil (by simpa using hea : a ≠ [])
        exact ha.relative
      · rw [Path.namesOf_append] at hname
        exact (List.mem_append.mp hname).elim (ha.names name) (hb.names name)

theorem IsScopePath.relative (h : IsScopePath t) : t.head? ≠ some (char '/') := by
  cases h with
  | root => simp
  | here => decide
  | names names hne hnames =>
    obtain ⟨name, rest, rfl⟩ := List.exists_cons_of_ne_nil hne
    have hname := hnames name List.mem_cons_self
    rw [Path.head?_joinWith hname.ne_nil]
    exact fun hhead => hname.noSlash (List.mem_of_mem_head? hhead)

/-- A path around another one leads over names of that one. -/
theorem LeadsOver.around (h : LeadsOver P path) (hwithin : isWithin path base = true) : LeadsOver P base := by
  rcases isWithin_iff_append.mp hwithin with rfl | rfl | ⟨rest, rfl⟩
  · exact leadsOver_nil
  · exact h
  · refine ⟨?_, fun name hname => h.names name ?_⟩
    · cases base with
      | nil => simp
      | cons c base => exact h.relative
    · rw [Path.namesOf_append]
      exact List.mem_append_left _ hname

/-- A path moved leads over names of the new place and of what was behind the old one. If any name is fine, it does not
matter where the path is cut. -/
theorem LeadsOver.rebase (h : LeadsOver P path) (hnew : LeadsOver P new)
    (hwithin : isWithin path old = true ∨ ∀ name, P name) : LeadsOver P (rebase path old new) := by
  refine hnew.join ?_
  cases hempty : old.isEmpty with
  | true => exact h
  | false =>
    refine ⟨fun hhead => by simpa using head?_trimWhile _ _ hhead, fun name hname => ?_⟩
    simp only [Bool.false_eq_true, if_false, Path.namesOf_trimWhile] at hname
    rcases hwithin with hwithin | hall
    · rcases isWithin_iff_append.mp hwithin with rfl | rfl | ⟨rest, rfl⟩
      · cases hempty
      · rw [List.drop_length] at hname
        cases hname
      · rw [List.drop_left, Path.namesOf_cons] at hname
        refine h.names name ?_
        rw [Path.namesOf_append]
        exact List.mem_append_right _ hname
    · exact hall name

theorem LeadsOver.flattenTo (hbase : LeadsOver P base) (h : LeadsOver P path) :
    LeadsOver P (RuleSet.flattenTo base path) := by
  refine hbase.join ?_
  by_cases hnil : Path.namesOf path = []
  · simp [Path.name, Path.ofText, hnil, leadsOver_nil]
  · have hlast : (Path.ofText path).name ∈ Path.namesOf path := Path.name_mem hnil
    exact leadsOver_of_noSlash (Path.isName_of_mem_namesOf hlast).noSlash fun _ => h.names _ hlast

end

namespace RuleSet

variable {P : Text → Prop} {d : Draft} {defines : Table Text} {rules : RuleSet} {path : Text}

theorem remapping_eq_ok {old new : Text} (h : rules.remapping path = .ok (old, new)) :
    ∃ rule, rules.rule? .remapTarget path = some rule ∧ old = rule.scope ∧ ∃ t, new = scopePath t := by
  unfold remapping at h
  split at h
  · cases h
  · rename_i rule hrule
    split at h
    · cases h
    · split at h
      · cases h
      · rename_i t _
        obtain ⟨rfl, rfl⟩ := Prod.mk.inj (Except.ok.inj h)
        exact ⟨rule, hrule, rfl, t, rfl⟩

theorem leadsOver_flattenBase (h : ofDraft d defines = .ok rules) (hpath : LeadsOver P path)
    (hform : scopePath path = path ∨ ∀ name, P name) : LeadsOver P (rules.flattenBase path) := by
  unfold flattenBase
  cases hrule : rules.rule? .flattenIf path with
  | none => exact leadsOver_nil
  | some rule =>
    obtain ⟨hscope, hwithin⟩ := scope_of_rule? h hrule
    rcases hform with hform | hall
    · rw [hform] at hwithin
      exact hpath.around hwithin
    · exact ⟨hscope.relative, fun name _ => hall name⟩

/-- A destination leads over names of the path, and of what is put in front of it. -/
theorem leadsOver_destination (h : ofDraft d defines = .ok rules) (hpath : LeadsOver P path)
    (hform : scopePath path = path ∨ ∀ name, P name) {remap flatten : Bool} {destination : Text}
    (hnew : remap = true → ∀ old new, rules.remapping path = .ok (old, new) → LeadsOver P new)
    (hdestination : rules.destination path remap flatten = .ok destination) : LeadsOver P destination := by
  have hbase := leadsOver_flattenBase h hpath hform
  cases remap with
  | false =>
    rw [destination_false] at hdestination
    rw [← Except.ok.inj hdestination]
    split
    · exact hbase.flattenTo hpath
    · exact hpath
  | true =>
    rw [destination_true] at hdestination
    cases hremap : rules.remapping path with
    | error fault => rw [hremap] at hdestination; cases hdestination
    | ok parts =>
      obtain ⟨old, new⟩ := parts
      replace hnew := hnew rfl old new hremap
      have hmoved : LeadsOver P (rebase path old new) := by
        obtain ⟨rule, hrule, rfl, -⟩ := remapping_eq_ok hremap
        refine hpath.rebase hnew (hform.imp_left fun hform => ?_)
        exact hform ▸ (scope_of_rule? h hrule).2
      rw [hremap] at hdestination
      rw [← Except.ok.inj hdestination]
      dsimp only
      split
      · refine LeadsOver.flattenTo ?_ hmoved
        split
        · rename_i hwithin
          exact hbase.rebase hnew (.inl hwithin)
        · exact hnew
      · exact hmoved

/-- A path is skipped, or goes to its destination. -/
theorem evaluate_eq_ok {raw : Text} {facts : Facts} {r : Resolution} (h : rules.evaluate raw facts = .ok r) :
    r.skip = true ∨ rules.destination (scopePath raw) r.remap r.flatten = .ok r.destination := by
  unfold evaluate at h
  obtain ⟨skip, -, h⟩ := bind_eq_ok.mp h
  cases skip with
  | true => exact .inl (congrArg Resolution.skip (Except.ok.inj h)).symm
  | false =>
    obtain ⟨remap, -, h⟩ := bind_eq_ok.mp h
    obtain ⟨flatten, -, h⟩ := bind_eq_ok.mp h
    obtain ⟨destination, hdestination, h⟩ := bind_eq_ok.mp h
    exact .inr (Except.ok.inj h ▸ hdestination)

end RuleSet

end Regraft

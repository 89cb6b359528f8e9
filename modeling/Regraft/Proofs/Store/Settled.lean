import Regraft.Proofs.Files.Effect
import Regraft.Proofs.Store.History
import Regraft.Proofs.Text.Scan
/-!
# Keys of keys

What is stored for a target is stored under its key, and every step on the way takes the key of what it is given once
more. That comes to one key exactly if the key has no blanks at its ends. Blanks around a target are taken off before
its path is simplified, and the simpler path may have others at its ends.

* `keyOf_key_iff`: when a key is its own key;
* `Store.WorksUnder`: naming artifacts, loading, appending and generating go by one key;
* `keyOf_settled`: what a key is made of, and that all of them go by it if it is its own.
-/
namespace Regraft

/-! ## Written paths -/

/-- Simplifying a written path takes characters away. -/
theorem Path.joinWith_namesOf_sublist (t : Text) : (joinWith ['/'] (namesOf t)).Sublist t := by
  have hnames : (joinWith ['/'] (namesOf t)).Sublist (joinWith ['/'] (fields (char '/') t)) :=
    joinWith_sublist List.filter_sublist
  rwa [joinWith_fields] at hnames

theorem replaceChar_eq_self {old new : CodePoint} {t : Text} (h : old ∉ t) : replaceChar old new t = t := by
  have hkept : ∀ c ∈ t, (if c = old then new else c) = c := by
    intro c hc
    exact if_neg fun (heq : c = old) => h (heq ▸ hc)
  rw [replaceChar, List.map_congr_left hkept, List.map_id'']
  exact fun _ => rfl

theorem not_mem_replaceChar {old new : CodePoint} (hne : new ≠ old) (t : Text) : old ∉ replaceChar old new t := by
  intro hmem
  obtain ⟨c, -, hc⟩ := List.mem_map.mp hmem
  split at hc
  · exact hne hc
  · rename_i hother
    exact hother hc

/-! ## Keys -/

variable {given key other : Text}

/-- A key is a part of what it is the key of, with the blanks at the ends left out. -/
theorem keyOf_sublist (h : keyOf given = .ok key) : key.Sublist (strip (replaceChar '\\' '/' given)) := by
  rw [(keyNames_of_keyOf h).written]
  exact Path.joinWith_namesOf_sublist _

/-- A key has no backslashes. -/
theorem backslash_not_mem_key (h : keyOf given = .ok key) : char '\\' ∉ key := by
  intro hmem
  have hgiven := ((keyOf_sublist h).trans (trimWhile_sublist _ _)).subset hmem
  exact not_mem_replaceChar (by decide) given hgiven

/-- Whatever is made of names is a key, if there are no blanks at its ends. -/
theorem KeyNames.keyOf_eq {names : List Text} (h : KeyNames key names) (hplain : char '\\' ∉ key)
    (hends : strip key = key) : keyOf key = .ok key := by
  have hnames : (Path.ofNames names).names ≠ [] := h.ne_nil
  have hbelow : ¬((Path.ofNames names).isAbsolute ∨ parentName ∈ (Path.ofNames names).names) :=
    not_or.mpr ⟨Bool.false_ne_true, h.noParent⟩
  rw [keyOf, replaceChar_eq_self hplain, hends, h.ofText, checkKey, if_neg hbelow, if_neg hnames,
    Path.toText_ofNames h.ne_nil h.isName, ← h.written]

/-- A key is its own key exactly if it has no blanks at its ends. -/
theorem keyOf_key_iff (h : keyOf given = .ok key) : keyOf key = .ok key ↔ strip key = key := by
  have hplain := backslash_not_mem_key h
  constructor
  · intro hself
    -- The key is a part of the stripped key, which is a part of the key.
    have hpart := keyOf_sublist hself
    rw [replaceChar_eq_self hplain] at hpart
    exact (trimWhile_sublist isBlank key).antisymm hpart
  · exact (keyNames_of_keyOf h).keyOf_eq hplain

/-! ## Stores -/

namespace Store

/-- A version is added to those that are loaded for a key. It has the next number, its records name the key, and its
artifact is written to the place that is named for the key, while no other file changes. -/
structure Adds (s : Store) (key : Text) (w : World) (stored : Stored) (w' : World) : Prop where
  next : ∃ vs, (s.load key).value w = .ok vs ∧ stored.version.order = vs.nextOrder
  named : ∀ r ∈ stored.version.records, r.targetPath = key
  written : s.sandbox.Writes w w' (s.root.join (Path.ofText (artifactName key stored.version.order)))
    stored.version.artifact stored.written

/-- Generating for a key finds nothing to store, or a version of the key that it would store again, and then changes
nothing; or it adds a version to those of the key. -/
structure Generates (s : Store) (key : Text) (w : World) (g : Generated) (w' : World) : Prop where
  keyed : g.key = key
  idle : g.stored = none → w' = w ∧
    (g.records = [] ∨ ∃ vs, (s.load key).value w = .ok vs ∧ ∃ v ∈ vs.versions, g.records = v.records)
  adds : ∀ stored, g.stored = some stored → g.records = stored.version.records ∧ s.Adds key w stored w'

/-- What is done in a store for a target is done for its key: the same comes of it when the key is given, and it is
the key that is in the versions and in the names of their artifacts. -/
structure WorksUnder (s : Store) (given key : Text) : Prop where
  artifactPath_eq : ∀ order, s.artifactPath given order = s.artifactPath key order
  load_eq : s.load given = s.load key
  append_eq : ∀ records, s.append given records = s.append key records
  generate_eq : ∀ tag context text, s.generate tag context text given = s.generate tag context text key
  placed : ∀ order place, s.artifactPath given order = .ok place →
    place = s.root.join (Path.ofText (artifactName key order))
  loaded : ∀ w vs, (s.load given).value w = .ok vs → vs.targetPath = key
  appended : ∀ records w, (s.append given records).Ends w (s.Adds key w) fun _ w' => w.SameFiles w'
  generated : ∀ tag context text w,
    (s.generate tag context text given).Ends w (s.Generates key w) fun _ w' => w.SameFiles w'

variable (s : Store) (w : World)

theorem eq_of_artifactPath {order : Int} {place : Path} (hkey : keyOf given = .ok key)
    (h : s.artifactPath given order = .ok place) : place = s.root.join (Path.ofText (artifactName key order)) := by
  simp only [artifactPath, hkey, bind, Except.bind, throw, throwThe, MonadExceptOf.throw, pure, Except.pure] at h
  split at h
  · cases h
  · exact (Except.ok.inj h).symm

/-- An append for a key that is its own key adds a version to those of the key, or changes no file. -/
theorem ends_append_key (hself : keyOf key = .ok key) (records : List Record) :
    (s.append key records).Ends w (s.Adds key w) fun _ w' => w.SameFiles w' := by
  refine (s.ends_append w key records).mono (fun stored w' happended => ?_) fun _ _ hsame => hsame
  obtain ⟨first, vs, place, hfirst, hvs, hversion, hplace, hwrites⟩ := happended
  obtain rfl := Except.ok.inj (hself.symm.trans hfirst)
  refine ⟨⟨vs, hvs, hversion ▸ rfl⟩, ?_, eq_of_artifactPath s hself hplace ▸ hwrites⟩
  rw [hversion]
  exact List.forall_mem_map.mpr fun r _ => rfl

/-- Generating for a target with a key that is its own key adds a version to those of the key, or changes no file. -/
theorem ends_generate_key (hkey : keyOf given = .ok key) (hself : keyOf key = .ok key) (tag : Tag) (context : Int)
    (text : Text) :
    (s.generate tag context text given).Ends w (s.Generates key w) fun _ w' => w.SameFiles w' := by
  unfold generate
  rw [hkey]
  refine (Attempt.looks_pure key).ends_bind (fun _ _ => .refl w) fun first hfirst => ?_
  obtain rfl := Except.ok.inj hfirst
  refine (Attempt.looks_ofExcept .malformed _).ends_bind (fun _ _ => .refl w) fun segments _ => ?_
  split
  · exact Attempt.ends_pure ⟨rfl, fun _ => ⟨rfl, .inl rfl⟩, by simp⟩
  refine (Attempt.looks_ofExcept .context _).ends_bind (fun _ _ => .refl w) fun size _ => ?_
  refine (s.looks_load key).ends_bind (fun _ _ => .refl w) fun vs hvs => ?_
  split
  · rename_i v hfound
    exact Attempt.ends_pure ⟨rfl, fun _ => ⟨rfl, .inr ⟨vs, hvs, v, List.mem_of_find?_eq_some hfound, rfl⟩⟩, by simp⟩
  · refine (s.ends_append_key w hself _).bind fun stored w' hadds => Attempt.ends_pure ⟨rfl, by simp, ?_⟩
    rintro _ ⟨⟩
    exact ⟨rfl, hadds⟩

theorem append_given (hkey : keyOf given = .ok key) (hself : keyOf key = .ok key) (records : List Record) :
    s.append given records = s.append key records := by
  simp only [append, hkey, hself]

/-- A key that is its own key is what all work for its targets goes by. -/
theorem worksUnder (hkey : keyOf given = .ok key) (hself : keyOf key = .ok key) : s.WorksUnder given key where
  artifactPath_eq order := by simp only [artifactPath, hkey, hself]
  load_eq := by simp only [load, hkey, hself]
  append_eq records := s.append_given hkey hself records
  generate_eq tag context text := by simp only [generate, hkey, hself]
  placed order place h := s.eq_of_artifactPath hkey h
  loaded w vs h := Except.ok.inj ((keyOf_of_load h).symm.trans hkey)
  appended records w := by
    rw [s.append_given hkey hself records]
    exact s.ends_append_key w hself records
  generated tag context text w := s.ends_generate_key w hkey hself tag context text

end Store

/-! ## Settled keys -/

/-- A key is the path of a target from the root, without steps up, empty names and names for "here". It is its own key
exactly if it has no blanks at its ends, and then everything that is done for the target is done under this one key. -/
theorem keyOf_settled {given key : Text} (h : keyOf given = .ok key) :
    (Path.ofText key).isAbsolute = false ∧
      (∀ part ∈ fields (char '/') key, part ≠ [] ∧ part ≠ [char '.'] ∧ part ≠ parentName) ∧
        (keyOf key = .ok key ↔ strip key = key) ∧ (strip key = key → ∀ s : Store, s.WorksUnder given key) := by
  have hnames := keyNames_of_keyOf h
  refine ⟨?_, fun part hpart => ?_, keyOf_key_iff h, fun hends s => s.worksUnder h ((keyOf_key_iff h).mpr hends)⟩
  · rw [hnames.ofText]
    rfl
  · rw [hnames.written, Path.fields_joinWith hnames.ne_nil hnames.isName] at hpart
    exact ⟨(hnames.isName part hpart).ne_nil, (hnames.isName part hpart).ne_here,
      fun heq => hnames.noParent (heq ▸ hpart)⟩

/-- A target on another system, with a blank in front. -/
theorem keyOf_settled_backslashes : keyOf " lib\\.\\a b.cpp" = .ok "lib/a b.cpp" ∧
    keyOf "lib/a b.cpp" = .ok "lib/a b.cpp" ∧ Store.sampleStore.WorksUnder " lib\\.\\a b.cpp" "lib/a b.cpp" := by
  have hkey : keyOf " lib\\.\\a b.cpp" = .ok "lib/a b.cpp" := by decide
  obtain ⟨-, -, hself, hworks⟩ := keyOf_settled hkey
  exact ⟨hkey, hself.mpr (by decide), hworks (by decide) Store.sampleStore⟩

/-- Taking "here" off a path may leave a blank at its end, which is taken off the key the next time, so that there is
another key, or none. A version is then stored with records that name the one key, under the other one. -/
theorem keyOf_respelled : keyOf "./ a.cpp" = .ok " a.cpp" ∧ keyOf " a.cpp" = .ok "a.cpp" ∧
    keyOf "./ /x" = .ok " /x" ∧ keyOf " /x" = .error (.notBelowRoot " /x") ∧
      ((Store.sampleStore.append "./ a.cpp" [{ targetPath := [], kind := .addition }]).value
          Store.emptyWorld).toOption.map
            (fun stored => (stored.version.records.map Record.targetPath, stored.written)) =
        some ([(" a.cpp" : Text)], (⟨.relative, ["patches", "a.cpp.0001.patch.json"]⟩ : Path)) := by
  decide +kernel

end Regraft

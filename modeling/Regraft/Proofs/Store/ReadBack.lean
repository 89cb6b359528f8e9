import Regraft.Proofs.Files.Effect
import Regraft.Proofs.Record.Whole
import Regraft.Proofs.Store.History
/-!
# Versions read back from the store

A version has a place in a store if its texts can be encoded, its numbers are not too long for a reader of JSON and its
moment is one of universal time (`Version.IsStorable`). Its artifact is then a text that a file can hold, the version
is what the artifact says at any later time, and it is what is read from the file that the artifact was written to,
whether the sandbox writes in place or to its copy of the tree (`readVersion_artifact`).

* `World.version_of_writes`: a file into which the artifact of a version was written holds that version.
-/
namespace Regraft

/-- A version that can be stored: of a moment in universal time, with whole texts and numbers that are not too long. -/
structure Version.IsStorable (v : Version) : Prop where
  created : v.created.IsUniversal
  order : IsShort v.order
  whole : ∀ r ∈ v.records, r.IsWhole
  numbers : ∀ r ∈ v.records, r.HasShortNumbers ∧ IsShort r.order

theorem Version.IsStorable.exists_chars {v : Version} (h : v.IsStorable) : ∃ chars, v.artifact.chars? = some chars :=
  (isWhole_artifact h.whole).exists_chars

/-- The artifact of a version that can be stored says what the version is, whenever it is read. -/
theorem Version.IsStorable.ofArtifact {v : Version} (h : v.IsStorable) (now : Moment) :
    ofArtifact now v.artifact = .ok v := by
  obtain ⟨chars, hchars⟩ := h.exists_chars
  rw [Text.isWhole_of_chars? hchars]
  exact ofArtifact_artifact h.created h.order h.numbers hchars now

/-- A file into which the artifact of a version was written holds that version. -/
theorem World.version_of_writes {s : Sandbox} {w w' : World} {p written : Path} {v : Version} (hv : v.IsStorable)
    (h : s.Writes w w' p v.artifact written) : w'.version written = .ok v := by
  obtain ⟨-, here, chars, hlocate, htext, -, hfile, -⟩ := h
  have hread : w'.tree.read w'.cwd written = .ok (.text chars) := by
    simp [Tree.read, hlocate, hfile, bind, Except.bind, pure, Except.pure]
  exact World.version_eq_ok hread (htext ▸ hv.ofArtifact w'.clock)

namespace Store

/-- A version that can be stored has an artifact that a file can hold and that says what the version is; reading the
file that it was written to gives the version, field by field and record by record. -/
theorem readVersion_artifact {v : Version} (h : v.IsStorable) :
    (∃ chars, v.artifact = Text.ofChars chars ∧ ∀ now, Version.ofArtifact now (Text.ofChars chars) = .ok v) ∧
      ∀ (s : Sandbox) (w w' : World) (p written : Path),
        (s.writeText p v.artifact).outcome w = (.ok written, w') → (readVersion written).outcome w' = (.ok v, w') := by
  constructor
  · obtain ⟨chars, hchars⟩ := h.exists_chars
    have htext := Text.isWhole_of_chars? hchars
    exact ⟨chars, htext, htext ▸ h.ofArtifact⟩
  · intro s w w' p written hdone
    have hwrites := (s.ends_writeText w p v.artifact).of_ok hdone
    rw [outcome_readVersion, World.version_of_writes h hwrites]

/-- A version whose texts and numbers are hard to write: control characters, quotes and backslashes, line separators,
characters outside the basic plane, empty lists, and numbers below zero and beyond any machine word. -/
def trickyVersion : Version where
  order := -3
  created := ⟨2024, 2, 29, 23, 59, 59, 123456, some 0⟩
  records :=
    [{ targetPath := "dir/é \"x\".cpp", kind := .addition, style := .nextLine, comment := "\t\\ \u007f",
       indent := "\t", preceding := ["\u2028", ""], body := ["say(\"\\n\"); \x00\x1f", "😀\u2029"], anchor := -1,
       order := -3 },
     { targetPath := "a.c", kind := .deletion, stock := ["", "\u0085"], blankStock := [0, -(10 ^ 40)],
       replacementStyle := some .singleLine, replacementComment := "/", anchor := 10 ^ 60 }]

theorem isStorable_trickyVersion : trickyVersion.IsStorable := by
  refine ⟨?_, ?_, ?_, ?_⟩
  · refine ⟨rfl, ?_, ?_, ?_, ?_, ?_, ?_, ?_⟩ <;> decide
  · unfold IsShort
    decide
  · simp only [trickyVersion, List.forall_mem_cons, List.not_mem_nil, false_implies, implies_true, and_true]
    refine ⟨⟨Text.isWhole_ofString _, ?_⟩, ⟨Text.isWhole_ofString _, ?_⟩⟩ <;> simp [Record.texts]
  · simp only [trickyVersion, List.forall_mem_cons, List.not_mem_nil, false_implies, implies_true, and_true]
    refine ⟨⟨⟨by simp, ?_⟩, ?_⟩, ⟨⟨?_, ?_⟩, ?_⟩⟩ <;> unfold IsShort <;> decide

theorem readVersion_artifact_tricky : trickyVersion.IsStorable ∧
    ∃ w', (sampleStore.sandbox.writeText ⟨.relative, ["v.json"]⟩ trickyVersion.artifact).outcome emptyWorld =
        (.ok ⟨.relative, ["v.json"]⟩, w') ∧
      (readVersion ⟨.relative, ["v.json"]⟩).outcome w' = (.ok trickyVersion, w') := by
  have hwrite : (emptyWorld.tree.write emptyWorld.cwd ⟨.relative, ["v.json"]⟩ trickyVersion.artifact).2 = none := by
    decide +kernel
  have hdone := outcome_writeText (s := sampleStore) rfl emptyWorld ⟨.relative, ["v.json"]⟩ trickyVersion.artifact
  rw [hwrite] at hdone
  exact ⟨isStorable_trickyVersion, _, hdone, (readVersion_artifact isStorable_trickyVersion).2 _ _ _ _ _ hdone⟩

end Store

end Regraft

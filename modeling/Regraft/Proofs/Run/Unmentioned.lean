import Regraft.Proofs.Guard.Stray
import Regraft.Proofs.Run.Effect
/-!
# Texts that do not mention the tag

Before its lines are parsed, the text of a file is searched for the tag behind a comment mark, and a text without one is
left alone. The search goes across line ends and asks for less than a guard comment, so it may find a mention where no
guard is; it never misses a guard. What is left alone would have come to nothing.

* `Store.generate_of_not_mentions`: nothing is stored for a text without a mention, and the store is not asked;
* `Session.generate_misses_nothing`: the search leaves out no text with a guard, and makes no difference otherwise.
-/
namespace Regraft

variable {tag : Tag} {text : Text}

/-- The lines of a text without a mention hold no guards. -/
theorem parse_of_unmentioned (h : tag.mentions text = false) :
    Segment.parse tag (Buffer.ofText text).lines = .ok [] :=
  parse_of_not_mentions (Tag.not_mentions_of_mem_lines h)

/-- Nothing is stored for a text without a mention, and the store is not asked for its versions. -/
theorem Store.generate_of_not_mentions (s : Store) {target key : Text} (hkey : keyOf target = .ok key)
    (h : tag.mentions text = false) (context : Int) : s.generate tag context text target = pure ⟨key, [], none⟩ := by
  simp only [generate, hkey, parse_of_unmentioned h, Attempt.ofExcept, pure_bind, List.isEmpty_nil, if_true]

namespace Session

variable (s : Session) (job : Job)

/-- What generating makes of a text, whether or not that mentions the tag. -/
def generateText (text : Text) : Attempt Processed := do
  let o := Outcome.ofJob .generate job
  let g ← s.store.generate s.settings.guardTag s.settings.patchContext text job.targetPath
  match g.stored with
  | none => return ⟨o, none⟩
  | some stored =>
    let order := stored.version.order
    Attempt.journal (generateEvent job.targetPath g order s.sandbox.isDry)
    return ⟨{ o with status := .updated, version := some order, message := "stored version " ++ showInt order },
      some stored.written⟩

/-- Stores the segments of a file without looking for the tag first. -/
def generateAnyway : Attempt Processed := do
  match ← s.readGuarded job.file with
  | none => return ⟨Outcome.ofJob .generate job, none⟩
  | some text => s.generateText job text

theorem generateText_of_not_mentions {key : Text} (hkey : keyOf job.targetPath = .ok key)
    (h : s.settings.guardTag.mentions text = false) :
    s.generateText job text = return ⟨Outcome.ofJob .generate job, none⟩ := by
  simp only [generateText, s.store.generate_of_not_mentions hkey h, pure_bind]

/-- Generating is the same without the look for the tag. -/
theorem generate_eq_generateAnyway {key : Text} (hkey : keyOf job.targetPath = .ok key) :
    s.generate job = s.generateAnyway job := by
  unfold generate generateAnyway
  refine bind_congr fun text? => ?_
  cases text? with
  | none => rfl
  | some text =>
    cases hmentions : s.settings.guardTag.mentions text with
    | true =>
      simp only [hmentions]
      rfl
    | false =>
      simp only [hmentions, s.generateText_of_not_mentions job hkey hmentions]
      rfl

/-- Files that do not mention the tag may be left alone. The lines of a text without a mention are parsed without a
fault into no segment. A text with an End, a Begin, a guard of the next line or a guard behind code among its lines is
one that mentions the tag. So generating asks for the same things and comes to the same, whether or not it looks for the
tag first, for every target path that has a key. -/
theorem generate_misses_nothing (tag : Tag) (text : Text) (s : Session) {job : Job} {key : Text}
    (hkey : keyOf job.targetPath = .ok key) :
    (tag.mentions text = false → Segment.parse tag (Buffer.ofText text).lines = .ok []) ∧
      (∀ line ∈ (Buffer.ofText text).lines, (tag.isEnd line = true ∨ (tag.begin? line).isSome = true ∨
        (tag.marker? line).isSome = true ∨ (tag.trailing? line).isSome = true) → tag.mentions text = true) ∧
      s.generate job = s.generateAnyway job :=
  ⟨parse_of_unmentioned, fun _ hline hguard => Tag.mentions_of_mem_lines hline (Tag.mentions_of_guarded hguard),
    s.generate_eq_generateAnyway job hkey⟩

/-- A text with a longer tag and a mark that ends its line, and a text whose guard stands in front of a line end. -/
theorem generate_misses_nothing_sample :
    let tag : Tag := ⟨"Mod", by decide, by decide⟩
    let plain : Text := "int a; // Mod2\r\n//\r\n"
    let guarded : Text := "int a; // Mod\r\nint b;\n"
    keyOf dryJob.targetPath = .ok "b.cpp" ∧
      tag.mentions plain = false ∧ Segment.parse tag (Buffer.ofText plain).lines = .ok [] ∧
      ("int a; // Mod" : Text) ∈ (Buffer.ofText guarded).lines ∧ tag.mentions guarded = true ∧
      drySession.generate dryJob = drySession.generateAnyway dryJob := by
  intro tag plain guarded
  have hkey : keyOf dryJob.targetPath = .ok "b.cpp" := by decide
  have hplain : tag.mentions plain = false := by decide
  have hline : ("int a; // Mod" : Text) ∈ (Buffer.ofText guarded).lines := by decide
  obtain ⟨hparse, -, hsame⟩ := generate_misses_nothing tag plain drySession hkey
  obtain ⟨-, hmentions, -⟩ := generate_misses_nothing tag guarded drySession hkey
  exact ⟨hkey, hplain, hparse hplain, hline, hmentions _ hline (.inr (.inr (.inr (by decide)))), hsame⟩

/-- A mention across a line end, where no line has a guard. -/
example : Tag.mentions ⟨"Mod", by decide, by decide⟩ "//\nMod\n" = true ∧
    Segment.parse ⟨"Mod", by decide, by decide⟩ (Buffer.ofText "//\nMod\n").lines = .ok [] := by decide

end Session

end Regraft

import Mathlib.Data.List.ReduceOption
import Regraft.Splice.InPlace
import Regraft.Proofs.Splice.Simultaneous
import Regraft.Proofs.Splice.Sources
/-!
# Splicing in place

Applying records to lines in place, one call after the other. A call comes to what splicing into a copy of the lines
comes to, so nothing has been written when it fails; and each call that writes puts the sources of the stock that it
takes out back among the new ones.

* `ApplyCall.run_eq`: one call, told by `applyRecord`;
* `Sourced.Tracks`, `tracks_run`, `tracks_runAll`: every line of the file is the source of one line, whatever is called;
* `calls_keep_sources`: what holds after each call of a row.
-/
namespace Regraft

section
variable {σ : Type} {tag : Tag}

namespace Editing
variable {α β : Type}

/-- What comes behind a step meets the lines as that step leaves them. -/
theorem run_bind (x : Editing σ α) (next : α → Editing σ β) (b : Sourced σ) :
    (x >>= next).run b = match x.run b with
      | (.ok a, b') => (next a).run b'
      | (.error e, b') => (.error e, b') := by
  change (match x b with | (r, b') => ExceptT.bindCont next r b') = match x b with
      | (.ok a, b') => next a b'
      | (.error e, b') => (.error e, b')
  rcases x b with ⟨_ | _, b'⟩ <;> rfl

theorem run_ofExcept {ε : Type} (wrap : ε → ApplyFault) (x : Except ε α) (b : Sourced σ) :
    (ofExcept wrap x).run b = (x.mapError wrap, b) := by
  cases x <;> rfl

theorem run_get (b : Sourced σ) : (get : Editing σ (Sourced σ)).run b = (.ok b, b) := rfl

end Editing

/-- Written in place, a record comes to what it comes to in a copy; if it cannot be written, the lines stay. -/
theorem run_writeInPlace (place : Nat) (r : Record) (b : Sourced σ) :
    (writeInPlace tag place r).run b = match spliceRecord tag b place r with
      | .ok b' => (.ok (), b')
      | .error e => (.error (.splice e), b) := by
  simp only [writeInPlace, spliceRecord, Editing.run_bind, Editing.run_ofExcept, Editing.run_get]
  cases r.render tag with
  | error e => rfl
  | ok rendered =>
    simp only [Except.mapError, bind, Except.bind]
    split <;> rfl

namespace ApplyCall

/-- A call comes to what it comes to in a copy of the lines; if it does not write the record, the lines stay. -/
theorem run_eq (call : ApplyCall) (b : Sourced σ) :
    call.run tag b = match applyRecord tag b call.position call.record call.checkExisting with
      | .ok (some b') => (.ok true, b')
      | .ok none => (.ok false, b)
      | .error e => (.error e, b) := by
  have hwrite (place : Nat) : (do writeInPlace tag place call.record; return true : Editing σ Bool).run b =
      match spliceRecord tag b place call.record with
      | .ok b' => (.ok true, b')
      | .error e => (.error (.splice e), b) := by
    rw [Editing.run_bind, run_writeInPlace]
    cases spliceRecord tag b place call.record <;> rfl
  simp only [run, applyInPlace, applyRecord, Editing.run_bind, Editing.run_ofExcept, Editing.run_get]
  cases placeIn b.lines call.position with
  | error e => rfl
  | ok place =>
    simp only [Except.mapError, bind, Except.bind]
    cases call.checkExisting with
    | false =>
      simp only [Bool.false_eq_true, if_false, List.any_nil]
      refine (hwrite place).trans ?_
      cases spliceRecord tag b place call.record <;> rfl
    | true =>
      simp only [if_true]
      cases Segment.parse tag b.lines with
      | error e => rfl
      | ok segments =>
        simp only
        split
        · rfl
        · refine (hwrite place).trans ?_
          cases spliceRecord tag b place call.record <;> rfl

/-- The lines behind a call are those in front of it, or those with the record spliced in, and then it answers so. -/
theorem run_cases (tag : Tag) (call : ApplyCall) (b : Sourced σ) :
    ((call.run tag b).2 = b ∧ (call.run tag b).1 ≠ .ok true) ∨
      ∃ place, placeIn b.lines call.position = .ok place ∧ (call.run tag b).1 = .ok true ∧
        spliceRecord tag b place call.record = .ok (call.run tag b).2 := by
  rw [run_eq]
  rcases happly : applyRecord tag b call.position call.record call.checkExisting with e | _ | b'
  · exact .inl ⟨rfl, by simp⟩
  · exact .inl ⟨rfl, by simp⟩
  · refine .inr ?_
    obtain ⟨place, hplace, happly⟩ := bind_eq_ok.mp happly
    refine ⟨place, mapError_eq_ok.mp hplace, rfl, ?_⟩
    have hsplice : (do return some (← (spliceRecord tag b place call.record).mapError ApplyFault.splice)) =
        Except.ok (some b') := by
      split at happly
      · obtain ⟨segments, -, happly⟩ := bind_eq_ok.mp happly
        split at happly
        · cases happly
        · exact happly
      · exact happly
    obtain ⟨b'', hb, hsome⟩ := bind_eq_ok.mp hsplice
    obtain rfl := Option.some.inj (Except.ok.inj hsome)
    exact mapError_eq_ok.mp hb

end ApplyCall

/-! ## Sources -/

theorem reduceOption_replaceSpan {xs new : List (Option σ)} {start count : Nat}
    (h : new.reduceOption = ((xs.drop start).take count).reduceOption) :
    (replaceSpan xs start count new).reduceOption = xs.reduceOption := by
  calc (replaceSpan xs start count new).reduceOption
    _ = (xs.take start ++ ((xs.drop start).take count ++ (xs.drop start).drop count)).reduceOption := by
        simp only [replaceSpan, List.reduceOption_append, h, List.drop_drop, List.append_assoc]
    _ = xs.reduceOption := by rw [List.take_append_drop, List.take_append_drop]

/-- Among the sources of a rendered record are those of its stock, and no others. -/
theorem Record.reduceOption_renderedSources {r : Record} {known : List (Option σ)} (count : Nat)
    (h : r.kind = .addition → known = []) :
    (r.renderedSources known count).reduceOption = known.reduceOption := by
  unfold renderedSources
  cases hkind : r.kind with
  | addition => rw [h hkind, List.reduceOption_replicate_none, List.reduceOption_nil]
  | deletion =>
    cases r.style <;>
      simp [List.reduceOption_append, List.reduceOption_cons_of_none, List.reduceOption_replicate_none]

variable {b b' : Sourced σ} {r : Record}

/-- Splicing in a record takes no source away and adds none. -/
theorem reduceOption_spliceRecord {place : Nat} (h : spliceRecord tag b place r = .ok b') :
    b'.sources.reduceOption = b.sources.reduceOption := by
  obtain ⟨rendered, -, -, rfl⟩ := spliceRecord_eq_ok h
  refine reduceOption_replaceSpan (Record.reduceOption_renderedSources _ fun hkind => ?_)
  rw [Record.extent, hkind, List.take_zero]

end

/-- A source for each line, and each line of a file of so many lines the source of one, in its sequence. -/
structure Sourced.Tracks (count : Nat) (b : Sourced Nat) : Prop where
  length : b.sources.length = b.lines.length
  known : b.sources.reduceOption = List.range count

section
variable {count : Nat}

theorem tracks_ofLines (lines : List Text) : (Sourced.ofLines lines).Tracks lines.length := by
  refine ⟨length_sources_ofLines lines, ?_⟩
  simp [Sourced.ofLines, List.reduceOption]

/-- One call keeps the sources, whatever it answers. -/
theorem tracks_run (tag : Tag) {b : Sourced Nat} (hb : b.Tracks count) (call : ApplyCall) :
    (call.run tag b).2.Tracks count := by
  rcases call.run_cases tag b with ⟨hsame, -⟩ | ⟨place, -, -, hsplice⟩
  · rwa [hsame]
  · exact ⟨length_sources_spliceRecord hb.length hsplice, (reduceOption_spliceRecord hsplice).trans hb.known⟩

theorem tracks_runAll (tag : Tag) {b : Sourced Nat} (hb : b.Tracks count) (calls : List ApplyCall) :
    (ApplyCall.runAll tag b calls).Tracks count := by
  induction calls generalizing b with
  | nil => exact hb
  | cons call calls ih => exact ih (tracks_run tag hb call)

/-- Records applied to lines in place, in any row of calls: after each of them there is a source for each line, the
sources are all lines of the file in their sequence, and a next call that does not answer that it has written its
record leaves lines and sources as they are. -/
theorem calls_keep_sources (tag : Tag) (lines : List Text) (calls : List ApplyCall) :
    let b := ApplyCall.runAll tag (.ofLines lines) calls
    b.sources.length = b.lines.length ∧ b.sources.reduceOption = List.range lines.length ∧
      ∀ call : ApplyCall, (call.run tag b).1 ≠ .ok true → (call.run tag b).2 = b := by
  have htracks := tracks_runAll tag (tracks_ofLines lines) calls
  refine ⟨htracks.length, htracks.known, fun call hanswer => ?_⟩
  rcases call.run_cases tag _ with ⟨hsame, -⟩ | ⟨_, -, hwritten, -⟩
  · exact hsame
  · exact absurd hwritten hanswer

end

end Regraft

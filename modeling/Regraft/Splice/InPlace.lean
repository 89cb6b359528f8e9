import Regraft.Splice.Apply
/-!
# Splicing into lines in place

`applyInPlace` works on live lines and their sources where they stand. The two are changed one after the other, and a
fault leaves them as they are at that moment: whether a call that fails has changed anything is told by the sequence of
its steps.
-/
namespace Regraft

/-- Work on lines in place. What it has done to them stays done if it fails. -/
abbrev Editing (σ : Type) := ExceptT ApplyFault (StateM (Sourced σ))

variable {σ : Type}

/-- A step that looks at no lines but those it is given. -/
def Editing.ofExcept {ε α : Type} (wrap : ε → ApplyFault) (x : Except ε α) : Editing σ α :=
  liftM (x.mapError wrap)

/-- A record's guarded lines put in place of the stock lines that it takes out. -/
def writeInPlace (tag : Tag) (place : Nat) (r : Record) : Editing σ Unit := do
  let rendered ← Editing.ofExcept .splice (r.render tag)
  let extent := r.extent
  let b ← get
  if extent ≠ 0 ∧ (b.lines.drop place).take extent ≠ r.stock then throw (.splice (.stockAbsent place))
  modify fun b => { b with lines := replaceSpan b.lines place extent rendered }
  modify fun b => { b with
    sources := replaceSpan b.sources place extent
      (r.renderedSources ((b.sources.drop place).take extent) rendered.length) }

/-- A record spliced in at a place of live lines, and whether that was done: not if it is there already. -/
def applyInPlace (tag : Tag) (position : Int) (r : Record) (checkExisting : Bool) : Editing σ Bool := do
  let b ← get
  let place ← Editing.ofExcept .splice (placeIn b.lines position)
  let segments ← Editing.ofExcept .malformed (if checkExisting then Segment.parse tag b.lines else .ok [])
  if segments.any fun s => s.covers place && s.sameChange r then return false
  writeInPlace tag place r
  return true

/-- One call: a record, the place where it goes, and whether it may be there already. -/
structure ApplyCall where
  position : Int
  record : Record
  checkExisting : Bool := true

namespace ApplyCall

/-- What a call answers, and the lines behind it. -/
def run (tag : Tag) (call : ApplyCall) (b : Sourced σ) : Except ApplyFault Bool × Sourced σ :=
  (applyInPlace tag call.position call.record call.checkExisting).run b

/-- The lines behind a row of calls, the failing ones among them. -/
def runAll (tag : Tag) (b : Sourced σ) (calls : List ApplyCall) : Sourced σ :=
  calls.foldl (fun b call => (call.run tag b).2) b

end ApplyCall

end Regraft

import Regraft.Splice.Render
import Regraft.Guard.Stock
/-!
# Splicing records in and out

`applyRecord` puts one record into live lines, `applyVersion` all records of a placed version into stock
lines, from the last one to the first so that the places of the others stay valid. `clearLines` takes every
segment out again. Beside the lines go their sources, one for each: where the line comes from, or nothing
for guard comments and plugin lines.
-/
namespace Regraft

/-- Why a record was not applied to live lines. -/
inductive ApplyFault where
  | malformed (fault : MalformedGuard)
  | splice (fault : SpliceFault)
  deriving DecidableEq, Repr

/-- Lines with the source of each. -/
structure Sourced (σ : Type) where
  lines : List Text
  sources : List (Option σ)
  deriving DecidableEq, Repr

/-- A segment makes the same change as a record. -/
def Segment.sameChange (s : Segment) (r : Record) : Bool :=
  match s, r.kind with
  | .addition g, .addition => g.body = r.body
  | .deletion _ stock _ _, .deletion => stock = r.stock && s.inserted = r.body
  | _, _ => false

/-- A segment covers a line. -/
def Segment.covers (s : Segment) (position : Nat) : Bool := s.start ≤ position && position < s.stop

/-- Some elements of a list replaced by others. -/
def replaceSpan {α : Type} (xs : List α) (start count : Nat) (new : List α) : List α :=
  xs.take start ++ new ++ xs.drop (start + count)

section
variable {σ : Type}

/-- The place that a signed number names among lines, the end included. -/
def placeIn (lines : List Text) (position : Int) : Except SpliceFault Nat :=
  if position < 0 ∨ (lines.length : Int) < position then .error (.outside position lines.length)
  else .ok position.toNat

/-- A record's guarded lines in place of the stock lines that it takes out. -/
def spliceRecord (tag : Tag) (b : Sourced σ) (position : Nat) (r : Record) :
    Except SpliceFault (Sourced σ) := do
  let rendered ← r.render tag
  let extent := r.extent
  if extent ≠ 0 ∧ (b.lines.drop position).take extent ≠ r.stock then throw (.stockAbsent position)
  let sources := r.renderedSources ((b.sources.drop position).take extent) rendered.length
  return ⟨replaceSpan b.lines position extent rendered, replaceSpan b.sources position extent sources⟩

/-- A record spliced in at a place of live lines; nothing if it is there already. -/
def applyRecord (tag : Tag) (b : Sourced σ) (position : Int) (r : Record) (checkExisting : Bool) :
    Except ApplyFault (Option (Sourced σ)) := do
  let position ← (placeIn b.lines position).mapError .splice
  if checkExisting then
    let segments ← (Segment.parse tag b.lines).mapError .malformed
    if segments.any fun s => s.covers position && s.sameChange r then return none
  return some (← (spliceRecord tag b position r).mapError .splice)

/-- A record spliced in at its place, if that is a place of the file. -/
def splicePlaced (tag : Tag) (b : Sourced σ) (position : Int) (r : Record) :
    Except SpliceFault (Sourced σ) := do
  spliceRecord tag b (← placeIn b.lines position) r

/-- A record with its place and its number in the version. -/
structure Numbered where
  number : Nat
  position : Int
  record : Record

/-- Records in the sequence in which they are spliced in: from the end of the file to its start, and at one
place from the last record to the first. -/
def spliceOrder (placed : List (Int × Record)) : List Numbered :=
  let numbered := placed.zipIdx.map fun ((position, record), i) => (⟨i + 1, position, record⟩ : Numbered)
  numbered.mergeSort fun a b =>
    if a.position = b.position then b.number ≤ a.number else b.position ≤ a.position

/-- All records of a version spliced into stock lines. -/
def applyVersion (tag : Tag) (stock : Sourced σ) (placed : List (Int × Record)) :
    Except SpliceFault (Sourced σ) :=
  (spliceOrder placed).foldlM (fun b n =>
    (splicePlaced tag b n.position n.record).mapError
      (.atSegment n.number n.record.targetPath n.position)) stock

end

/-- The stock lines of a file and the live line that each comes from. -/
def clearLines (tag : Tag) (lines : List Text) : Except MalformedGuard (Sourced Nat) := do
  let segments ← Segment.parse tag lines
  return ⟨stockLines lines segments, (stockSources lines.length segments).map some⟩

end Regraft

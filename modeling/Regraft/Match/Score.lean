import Regraft.Record.Basic
import Regraft.Match.Similarity
/-!
# Scores

How well a record fits at a place in the stock text: the similarity of its context lines with the lines
around the place, divided by their number. `candidates` ranks all places within the line tolerance.
-/
namespace Regraft

/-- What counts as a match. -/
structure Matching (α : Type) where
  /-- The share of the context that may disagree, from 0 to 1. -/
  contentTolerance : α
  /-- The farthest drift from the recorded line; none if there is no limit. -/
  lineTolerance : Option α
  similarity : Similarity α

/-- Why tolerances are refused. -/
inductive MatchingFault where
  | content
  | line
  | similarity (name : Text)
  deriving DecidableEq, Repr

/-- The error in words. -/
def MatchingFault.message : MatchingFault → Text
  | content => "content_tolerance must be within [0, 1]"
  | line => "line_tolerance must be non-negative"
  | similarity name =>
    "Unknown line similarity '" ++ name ++ "' (choose from exact, fuzzy, whitespace)"

/-- A place for a record with its score and its distance from the recorded anchor. -/
structure Candidate (α : Type) where
  position : Nat
  score : α
  distance : α
  deriving Repr

section
variable {α : Type} [Scale α]

/-- Tolerances within their ranges. -/
def Matching.check (contentTolerance : α) (lineTolerance : Option α) (similarity : Similarity α) :
    Except MatchingFault (Matching α) :=
  if ¬ (Scale.ofNat 0 ≤ contentTolerance ∧ contentTolerance ≤ Scale.ofNat 1) then .error .content
  else if lineTolerance.any (· < (Scale.ofNat 0 : α)) then .error .line
  else .ok ⟨contentTolerance, lineTolerance, similarity⟩

namespace Matching

variable (m : Matching α)

/-- The score that a place must reach. -/
def requiredScore : α := Scale.ofNat 1 - m.contentTolerance

/-- A score that is high enough. -/
def qualifies (score : α) : Bool := m.requiredScore ≤ score + Scale.slack

/-- A drift that is small enough. -/
def allows (distance : α) : Bool := m.lineTolerance.all fun limit => ¬ limit < distance

/-- The context lines of a record next to the lines they stand for around a place. A context line
without a counterpart is left out. -/
def comparedLines (lines : List Text) (position : Nat) (r : Record) : List (Text × Text) :=
  let before := r.preceding.length
  (r.preceding.drop (before - position)).zip ((lines.take position).drop (position - before)) ++
    r.following.zip (lines.drop (position + r.extent))

/-- The summed similarity of lines. -/
def agreementOf (pairs : List (Text × Text)) : α :=
  pairs.foldl (fun sum pair => sum + m.similarity pair.1 pair.2) (Scale.ofNat 0)

/-- The lines that the record takes out stand at the place. -/
def extentFits (lines : List Text) (position : Nat) (r : Record) : Bool :=
  match r.kind with
  | .addition => true
  | .deletion => (lines.drop position).take r.extent = r.stock

/-- The agreement of a record's context at a place; none if the record cannot go there. -/
def score (lines : List Text) (position : Nat) (r : Record) : Option α :=
  if lines.length < position || !extentFits lines position r then none
  else if r.contextSize = 0 then some (Scale.ofNat 1)
  else some (m.agreementOf (comparedLines lines position r) / Scale.ofNat r.contextSize)

/-- The distance of a place from the recorded anchor. -/
def drift (position : Nat) (r : Record) : α := Scale.ofNat (position - r.anchor : Int).natAbs

/-- The anchor is so far from some place that the distance is off the scale; the first and the last place
are the farthest. -/
def offScale (_ : Matching α) (lines : List Text) (r : Record) : Bool :=
  !Scale.reaches α r.anchor.natAbs || !Scale.reaches α (lines.length - r.anchor : Int).natAbs

/-- The place with its score and distance, if the record can go there and drifts no farther than allowed. -/
def candidate? (lines : List Text) (r : Record) (position : Nat) : Option (Candidate α) :=
  let distance : α := drift position r
  if m.allows distance then (m.score lines position r).map (⟨position, ·, distance⟩) else none

/-- The places for a record, from the start of the file. -/
def candidatesInOrder (lines : List Text) (r : Record) : List (Candidate α) :=
  (List.range (lines.length + 1)).filterMap (m.candidate? lines r)

end Matching

/-- The better candidate: the higher score, then the smaller distance, then the earlier place. -/
def Candidate.atLeast (a b : Candidate α) : Bool :=
  if Scale.same a.score b.score then
    if Scale.same a.distance b.distance then a.position ≤ b.position
    else a.distance < b.distance
  else b.score < a.score

/-- The places for a record, the best one first. -/
def Matching.candidates (m : Matching α) (lines : List Text) (r : Record) : List (Candidate α) :=
  (m.candidatesInOrder lines r).mergeSort Candidate.atLeast

end

end Regraft

import Regraft.Match.Score
/-!
# Placements

A placement gives every record of a version a place, in order and without overlap. `Matching.place` finds
the best one in a single pass over the records: for each place of the current record it keeps the best
placement of the records before it that ends early enough, by the highest total score, then the least
total distance, then the earlier places.
-/
namespace Regraft

/-- A record with the place it goes to. -/
structure Placed (α : Type) where
  record : Record
  position : Nat
  score : α
  distance : α
  deriving Repr

/-- A version with a place for every record. -/
structure PlacedVersion (α : Type) where
  version : Version
  placed : List (Placed α)
  deriving Repr

/-- The first record of a version that cannot be placed behind the ones before it, with its best candidate. -/
structure Unplaced (α : Type) where
  record : Record
  best : Option (Candidate α)
  deriving Repr

/-- Candidates for the records so far, the last record's first, with their total score and distance. -/
structure Chain (α : Type) where
  last : Candidate α
  before : List (Candidate α)
  score : α
  distance : α
  deriving Repr

section
variable {α : Type} [Scale α]

namespace PlacedVersion

/-- The mean score; a version without records fits anywhere. -/
def score (p : PlacedVersion α) : α :=
  if p.placed.isEmpty then Scale.ofNat 1
  else p.placed.foldl (fun sum m => sum + m.score) (Scale.ofNat 0) / Scale.ofNat p.placed.length

/-- The total distance. -/
def distance (p : PlacedVersion α) : α :=
  p.placed.foldl (fun sum m => sum + m.distance) (Scale.ofNat 0)

end PlacedVersion

namespace Chain

/-- A chain of one candidate. -/
def single (c : Candidate α) : Chain α := ⟨c, [], c.score, c.distance⟩

/-- A chain with one more candidate. -/
def extend (chain : Chain α) (c : Candidate α) : Chain α :=
  ⟨c, chain.last :: chain.before, chain.score + c.score, chain.distance + c.distance⟩

/-- A higher score, or the same score at a smaller distance. -/
def beats (a b : Chain α) : Bool :=
  if Scale.same a.score b.score then a.distance < b.distance else b.score < a.score

/-- The better of a chain found so far and another one; the one found first wins a tie. -/
def better (best : Option (Chain α)) (chain : Chain α) : Option (Chain α) :=
  match best with
  | none => some chain
  | some b => if chain.beats b then some chain else some b

/-- The first of the best chains. -/
def best? (chains : List (Chain α)) : Option (Chain α) := chains.foldl better none

/-- The candidates, the first record's first. -/
def candidates (chain : Chain α) : List (Candidate α) := (chain.last :: chain.before).reverse

end Chain

/-- The chains that the candidates of the next record can continue. Both lists go up in the file, so the
chains that end before a candidate also end before the candidates after it: each is looked at once. -/
def continueChains (extent : Nat) :
    Option (Chain α) → List (Chain α) → List (Candidate α) → List (Chain α)
  | _, _, [] => []
  | best, chains, c :: cs =>
    let fits := fun chain : Chain α => decide (chain.last.position + extent ≤ c.position)
    let best := (chains.takeWhile fits).foldl Chain.better best
    let rest := continueChains extent best (chains.dropWhile fits) cs
    match best with
    | some chain => chain.extend c :: rest
    | none => rest

namespace Matching

variable (m : Matching α)

/-- The candidates of a record whose score is high enough, from the start of the file. -/
def qualifying (lines : List Text) (r : Record) : List (Candidate α) :=
  (m.candidatesInOrder lines r).filter (m.qualifies ·.score)

/-- The chains for records behind chains for the records before them, or the first record without one. -/
def chainsFrom (lines : List Text) : List (Chain α) → Nat → List Record → Except (Unplaced α) (List (Chain α))
  | chains, _, [] => .ok chains
  | chains, extent, r :: rest =>
    match continueChains extent none chains (m.qualifying lines r) with
    | [] => .error ⟨r, (m.candidates lines r).head?⟩
    | next => chainsFrom lines next r.extent rest

/-- The chains for all records of a version. -/
def chains (lines : List Text) : List Record → Except (Unplaced α) (List (Chain α))
  | [] => .ok []
  | r :: rest =>
    match m.qualifying lines r with
    | [] => .error ⟨r, (m.candidates lines r).head?⟩
    | found => m.chainsFrom lines (found.map Chain.single) r.extent rest

/-- Placing records comes to one whose anchor is off the scale. -/
def meetsOffScale (lines : List Text) (rs : List Record) : Bool :=
  (List.range rs.length).any fun i =>
    (rs[i]?.any fun r => m.offScale lines r) && (m.chains lines (rs.take i)).toBool

/-- A version with the best place for every record. -/
def place (lines : List Text) (v : Version) : Except (Unplaced α) (PlacedVersion α) := do
  let chains ← m.chains lines v.records
  let candidates := ((Chain.best? chains).map Chain.candidates).getD []
  return ⟨v, v.records.zipWith (fun r c => ⟨r, c.position, c.score, c.distance⟩) candidates⟩

end Matching

end

end Regraft

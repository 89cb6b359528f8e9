import Regraft.Text.Basic
import Regraft.Match.Scale
/-!
# Similarity of lines

How well an expected line agrees with an actual one, from 0 to 1: exactly (`exactSimilarity`), up to blanks
(`blankSimilarity`), or in part (`fuzzySimilarity`). Partial agreement is twice the number of characters in
the matching blocks of both texts over their joint length. The blocks are found by taking the longest
common run, then those on either side of it; in a long text, characters that occur often start no run.
-/
namespace Regraft

/-- A measure of how an expected line agrees with an actual one. -/
abbrev Similarity (α : Type) := (expected actual : Text) → α

/-! ## Matching blocks -/

/-- A run that two texts have in common: where it starts in each, and how long it is. -/
structure Block where
  left : Nat
  right : Nat
  size : Nat
  deriving DecidableEq, Repr

/-- The lengths of the common runs that end at each place of `b` and at one more character of `a`, from
those that end one character earlier. -/
def runsEnding (starts : CodePoint → Bool) (c : CodePoint) (b : Text) (runs : List Nat) : List Nat :=
  (b.zip (0 :: runs)).map fun (d, run) => if d = c && starts d then run + 1 else 0

/-- The better of a run found so far and the runs that end at place `i`: an earlier run stays unless a
later one is longer. -/
def betterRun (i : Nat) (best : Block) (runs : List Nat) : Block :=
  (runs.zipIdx).foldl (fun best (run, j) =>
    if best.size < run then ⟨i + 1 - run, j + 1 - run, run⟩ else best) best

/-- The longest common run of characters that may start one, and the first of the longest. -/
def longestRun (starts : CodePoint → Bool) (b : Text) : Nat → Text → List Nat → Block → Block
  | _, [], _, best => best
  | i, c :: cs, runs, best =>
    let runs := runsEnding starts c b runs
    longestRun starts b (i + 1) cs runs (betterRun i best runs)

/-- The number of characters that two texts begin with in common. -/
def commonStart : Text → Text → Nat
  | c :: cs, d :: ds => if c = d then commonStart cs ds + 1 else 0
  | _, _ => 0

/-- The longest common run, made longer at both ends by equal characters of any kind. -/
def longestBlock (starts : CodePoint → Bool) (a b : Text) : Block :=
  let run := longestRun starts b 0 a (b.map fun _ => 0) ⟨0, 0, 0⟩
  let before := commonStart (a.take run.left).reverse (b.take run.right).reverse
  let behind := commonStart (a.drop (run.left + run.size)) (b.drop (run.right + run.size))
  ⟨run.left - before, run.right - before, before + run.size + behind⟩

/-- The number of characters in all matching blocks. The first argument bounds the depth of the search;
the length of the first text is enough, as every block takes a character of it. -/
def matchedFrom (starts : CodePoint → Bool) : Nat → Text → Text → Nat
  | 0, _, _ => 0
  | fuel + 1, a, b =>
    let block := longestBlock starts a b
    if block.size = 0 then 0
    else
      matchedFrom starts fuel (a.take block.left) (b.take block.right) + block.size +
        matchedFrom starts fuel (a.drop (block.left + block.size)) (b.drop (block.right + block.size))

/-- In a text of two hundred characters or more, one that makes up over a hundredth of it is common. -/
def isCommon (t : Text) (c : CodePoint) : Bool :=
  200 ≤ t.length && t.length / 100 + 1 < t.count c

/-- The number of characters in the matching blocks of two texts. -/
def matchedSize (a b : Text) : Nat :=
  let common := b.eraseDups.filter (isCommon b)
  matchedFrom (fun c => !common.contains c) a.length a b

/-! ## Measures -/

section
variable {α : Type} [Scale α]

/-- Twice the matched characters over all characters; two empty texts agree. -/
def agreement (a b : Text) : α :=
  let total := a.length + b.length
  if total = 0 then Scale.ofNat 1
  else Scale.ofNat (2 * matchedSize a b) / Scale.ofNat total

/-- Lines agree if they are equal. -/
def exactSimilarity : Similarity α := fun expected actual =>
  if expected = actual then Scale.ofNat 1 else Scale.ofNat 0

/-- Lines agree if they have the same words. -/
def blankSimilarity : Similarity α := fun expected actual =>
  if words expected = words actual then Scale.ofNat 1 else Scale.ofNat 0

/-- Lines agree as far as their matching blocks go, but not at all below a threshold. -/
def fuzzySimilarity (threshold : α) : Similarity α := fun expected actual =>
  if expected = actual then Scale.ofNat 1
  else
    let ratio := agreement (strip expected) (strip actual)
    if threshold ≤ ratio then ratio else Scale.ofNat 0

/-- The threshold below which lines do not agree, unless another one is asked for. -/
def defaultThreshold : α := Scale.ofNat 8 / Scale.ofNat 10

/-- The measures that settings can name. -/
inductive SimilarityName where
  | exact
  | fuzzy
  | whitespace
  deriving DecidableEq, Repr

/-- The word for a measure. -/
def SimilarityName.word : SimilarityName → Text
  | exact => "exact"
  | fuzzy => "fuzzy"
  | whitespace => "whitespace"

/-- The measure that a word names. -/
def SimilarityName.ofWord? (t : Text) : Option SimilarityName :=
  [SimilarityName.exact, .fuzzy, .whitespace].find? (·.word = t)

/-- The named measure. -/
def SimilarityName.similarity : SimilarityName → Similarity α
  | exact => exactSimilarity
  | fuzzy => fuzzySimilarity defaultThreshold
  | whitespace => blankSimilarity

end

end Regraft

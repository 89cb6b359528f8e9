import Regraft.Number.Binary64
/-!
# The numbers of a match

Agreement with a context and drift from a recorded line are numbers of some ordered kind. Everything about
matching is written for any such kind, so that it runs on floating-point numbers and can be reasoned about
on exact rationals.
-/
namespace Regraft

/-- Numbers that scores and distances are counted in. -/
class Scale (α : Type) extends Add α, Sub α, Div α, LT α, LE α where
  /-- Equality as numbers. -/
  same : α → α → Bool
  /-- A whole number. -/
  ofNat : Nat → α
  /-- The natural numbers up to which `ofNat` keeps its meaning. -/
  reaches : Nat → Bool
  /-- How far below the bar a score may be and still pass. -/
  slack : α
  decLt : DecidableRel (α := α) (· < ·)
  decLe : DecidableRel (α := α) (· ≤ ·)

instance Scale.decidableLT {α : Type} [Scale α] : DecidableRel (α := α) (· < ·) := Scale.decLt

instance Scale.decidableLE {α : Type} [Scale α] : DecidableRel (α := α) (· ≤ ·) := Scale.decLe

instance : Scale Float where
  same a b := a == b
  ofNat n := Binary64.nearest false n 1
  reaches n := n < Binary64.overflowBound
  slack := 1e-9
  decLt a b := inferInstanceAs (Decidable (a < b))
  decLe a b := inferInstanceAs (Decidable (a ≤ b))

instance : Scale Rat where
  same a b := a == b
  ofNat n := n
  reaches _ := true
  slack := 1 / 1000000000
  decLt a b := inferInstanceAs (Decidable (a < b))
  decLe a b := inferInstanceAs (Decidable (a ≤ b))

end Regraft

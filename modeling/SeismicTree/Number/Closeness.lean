import SeismicTree.Number.Binary64

/-!
# Closeness and total weight

The tolerance is relative to the first number. Weights are added from left to right, starting
at zero; no compensated or exact summation is claimed.
-/

namespace SeismicTree

/-- The second number differs from the first by at most the given part of the first. -/
def Binary64.isClose (expected actual tolerance : Binary64) : Bool :=
  decide ((expected - actual).abs ≤ expected.abs * tolerance)

/-- The sum of the weights from left to right. -/
def totalWeight {ω : Type} [Add ω] [OfNat ω 0] (weights : List ω) : ω :=
  weights.foldl (· + ·) 0

end SeismicTree

import SeismicTree.Number.Closeness
import SeismicTree.Random.Twister

/-!
# Weighted choice

The weights are divided by their sum and added up from left to right, and the last sum is taken to
be one. A number below one then chooses the first sum that it does not exceed. Fewer than two
weights leave no choice, and no number is drawn for them. Weights are of any type with these
operations, so the choice by an exact number can be spoken of as well. The weight of a member is a
number, or the one with that name among several.
-/

namespace SeismicTree

namespace Discrete

variable {ω : Type}

section
variable [Add ω]

/-- The sums of a number and the first weights of a list. -/
def sumsFrom (start : ω) : List ω → List ω
  | [] => []
  | w :: ws => (start + w) :: sumsFrom (start + w) ws

def partialSums : List ω → List ω
  | [] => []
  | w :: ws => w :: sumsFrom w ws

variable [OfNat ω 0] [OfNat ω 1] [Div ω]

/-- The upper ends of the intervals that the weights cut out of those below one. -/
def thresholds (weights : List ω) : List ω :=
  let total := totalWeight weights
  (partialSums (weights.map (· / total))).dropLast ++ [1]

variable [LT ω] [DecidableLT ω]

/-- The position of the weight that a number below one chooses. -/
def choose (u : ω) (weights : List ω) : Nat :=
  if weights.length < 2 then 0 else (thresholds weights).findIdx fun t => !decide (t < u)

end

def draw (weights : List Binary64) (g : Twister) : Nat × Twister :=
  if weights.length < 2 then (0, g)
  else
    let (u, g) := g.uniform
    (choose u weights, g)

def draws (weights : List Binary64) : Nat → Twister → List Nat
  | 0, _ => []
  | n + 1, g =>
    let (i, g) := draw weights g
    i :: draws weights n g

/-- The positions of a number of choices that start from a seed. -/
def positions (weights : List Binary64) (n : Nat) (seed : UInt32) : List Nat :=
  draws weights n (Twister.ofSeed seed)

structure NamedNumbers where
  entries : List (String × Binary64)
  weighted : (entries.lookup "weight").isSome

class Weight (W : Type) where
  number : W → Binary64

instance : Weight Binary64 := ⟨id⟩

instance : Weight NamedNumbers := ⟨fun w => (w.entries.lookup "weight").get w.weighted⟩

/-- Members of a list, chosen by their weights with a generator that starts from a seed. -/
def sample {α W : Type} [Weight W] (weight : α → W) (members : List α) (n : Nat) (seed : UInt32) :
    List α :=
  (positions (members.map fun a => Weight.number (weight a)) n seed).filterMap fun i => members[i]?

end Discrete

end SeismicTree

import SeismicTree.Random.Discrete
import SeismicTree.Tree.Basic

/-!
# Sampling a tree

A sample goes down from the root and chooses one branch at every level. How a branch is chosen from
weights is a parameter. A seed chooses by the first number of its generator, and the same number is
used at every level; of a collapsed set the first branch is taken. The walk also ends at a set in
which the chosen branch does not exist.
-/

namespace SeismicTree

variable {ω : Type}

namespace Decision

/-- The position of the branch that is taken. -/
def pick (choose : List ω → Nat) (d : Decision) (weights : List ω) : Nat :=
  if d.collapsed then 0 else choose weights

end Decision

mutual

/-- The choices on the way from a set to a leaf. -/
def BranchSet.descendBy (choose : List ω → Nat) : BranchSet ω → List (Choice ω)
  | .mk d bs => Branch.takeAt choose bs (d.pick choose (bs.map (·.weight)))

def Branch.descendBy (choose : List ω → Nat) : Branch ω → List (Choice ω)
  | .mk c s => c :: BranchSet.descendBelowBy choose s

def BranchSet.descendBelowBy (choose : List ω → Nat) : Option (BranchSet ω) → List (Choice ω)
  | none => []
  | some s => s.descendBy choose

/-- The choices from the branch at a position of a list. -/
def Branch.takeAt (choose : List ω → Nat) : List (Branch ω) → Nat → List (Choice ω)
  | [], _ => []
  | b :: _, 0 => b.descendBy choose
  | _ :: bs, i + 1 => Branch.takeAt choose bs i

end

def BranchSet.sample (s : LogicTree) (seed : UInt32) : List (Choice Binary64) :=
  let u := (Twister.ofSeed seed).uniform.1
  s.descendBy (Discrete.choose u)

end SeismicTree

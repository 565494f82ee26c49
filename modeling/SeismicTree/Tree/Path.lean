import SeismicTree.Tree.Basic

/-!
# Paths

A path goes from the root to a leaf and holds the choice made at every level. Of a collapsed set
only the first branch is taken, with a weight of one. `BranchSet.paths` says by recursion which
paths a tree has and in which order; below a set without branches there is none.
-/

namespace SeismicTree

/-- The choices from the root to a leaf, and the product of their weights. -/
structure Path (ω : Type) where
  weight : ω
  choices : List (Choice ω)
  deriving DecidableEq

variable {ω : Type}

/-- The product of the weights from left to right. -/
def pathWeight [Mul ω] [OfNat ω 1] (choices : List (Choice ω)) : ω :=
  choices.foldl (fun w c => w * c.weight) 1

namespace Path

def ofChoices [Mul ω] [OfNat ω 1] (choices : List (Choice ω)) : Path ω :=
  ⟨pathWeight choices, choices⟩

def ids (p : Path ω) : List String := p.choices.map (·.id)

end Path

namespace Decision

/-- A choice as a path shows it. -/
def shown [OfNat ω 1] (d : Decision) (c : Choice ω) : Choice ω :=
  if d.collapsed then { c with weight := 1 } else c

/-- What is explored of a list with one item for each branch. -/
def explored {α : Type} (d : Decision) (items : List α) : List α :=
  if d.collapsed then items.take 1 else items

end Decision

mutual

/-- The choices of all paths of a set, in order. -/
def BranchSet.walks [OfNat ω 1] : BranchSet ω → List (List (Choice ω))
  | .mk d bs => (d.explored (Branch.walksOfAll d bs)).flatten

/-- The walks that start with a branch of a decision. -/
def Branch.walks [OfNat ω 1] (d : Decision) : Branch ω → List (List (Choice ω))
  | .mk c s => (BranchSet.walksBelow s).map (d.shown c :: ·)

/-- The walks behind a branch; a leaf ends the walk. -/
def BranchSet.walksBelow [OfNat ω 1] : Option (BranchSet ω) → List (List (Choice ω))
  | none => [[]]
  | some s => s.walks

/-- The walks of each branch in a list. -/
def Branch.walksOfAll [OfNat ω 1] (d : Decision) : List (Branch ω) → List (List (List (Choice ω)))
  | [] => []
  | b :: bs => b.walks d :: Branch.walksOfAll d bs

end

def BranchSet.paths [Mul ω] [OfNat ω 1] (s : BranchSet ω) : List (Path ω) :=
  s.walks.map Path.ofChoices

end SeismicTree

import SeismicTree.Tree.Growth

/-!
# Unfolding levels

What tree a list of levels describes, said without the order of its growth: behind every branch is
the first set of the later levels that is meant for it. Nothing is refused here.
-/

namespace SeismicTree

variable {ω : Type}

namespace BranchSet

/-- The tree behind a branch with an identifier, if one of the levels has a set for it. -/
def behind (id : String) : List (List (ListedSet ω)) → Option (BranchSet ω)
  | [] => none
  | level :: later =>
    match level.find? (·.reach.covers id) with
    | some s => some (.mk s.decision (s.choices.map fun c => .mk c (behind c.id later)))
    | none => behind id later

/-- The tree of a list of levels. Its root is the first set of all. -/
def ofLevels? : List (List (ListedSet ω)) → Option (BranchSet ω)
  | [] => none
  | [] :: later => ofLevels? later
  | (s :: _) :: later =>
    some (.mk s.decision (s.choices.map fun c => .mk c (behind c.id later)))

end BranchSet

end SeismicTree

import SeismicTree.Log
import SeismicTree.Tree.Basic

/-!
# Selections along a path

Identifiers, one for each level, select a branch set and a value at every level. The walk ends at a
leaf; identifiers that are left over are passed over with a warning.
-/

namespace SeismicTree

/-- A branch set on a path and the value chosen there. -/
structure Selection (ω : Type) where
  set : BranchSet ω
  value : UncertaintyValue

variable {ω : Type}

namespace BranchSet

/-- The selections along identifiers, and the identifiers left over behind a leaf. -/
def follow (s : BranchSet ω) : List String → Except Failure (List (Selection ω) × List String)
  | [] => .ok ([], [])
  | id :: ids => do
    let b ← s.get id
    match b.child with
    | none => return ([⟨s, b.value⟩], ids)
    | some c =>
      let (selections, rest) ← c.follow ids
      return (⟨s, b.value⟩ :: selections, rest)

def selections (s : BranchSet ω) (ids : List String) : Logged (List (Selection ω)) := do
  let (selections, rest) ← s.follow ids
  match rest with
  | [] => return selections
  | next :: _ =>
    Logged.note .warning ("Branch set " ++ s.id ++ ": " ++ toString rest.length
      ++ " branch ID(s) past the leaf are ignored, starting with " ++ next)
    return selections

end BranchSet

end SeismicTree

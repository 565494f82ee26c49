import SeismicTree.Tree.Basic

/-!
# Growing a tree

A tree grows by levels of branch sets. The first set is the root. Every later set is put behind open
leaves, either all of them or those it names. The leaves that a level brings open only when the
level is closed, so a set is never put behind a set of its own level.

A leaf is known by the identifiers that lead to it. A set that names a leaf twice is put there
twice: the second copy replaces the first one, whose leaves are lost, but stay in the list and are
counted there. What goes behind a lost leaf is lost as well and is no part of the tree. It is not
claimed that no lost leaf is open, nor what becomes of a tree then.
-/

namespace SeismicTree

/-- The leaves that a branch set is meant for. -/
inductive Reach where
  | everyLeaf
  | named (ids : List String)
  deriving DecidableEq, Repr

/-- Whether a leaf with an identifier is meant. -/
def Reach.covers (r : Reach) (id : String) : Bool :=
  match r with
  | .everyLeaf => true
  | .named ids => ids.contains id

/-- A branch set as a description lists it: the decision, its choices, and where it goes. -/
structure ListedSet (ω : Type) where
  decision : Decision
  choices : List (Choice ω)
  reach : Reach
  deriving DecidableEq

variable {ω : Type}

/-- The set with all of its branches as leaves. -/
def ListedSet.leafSet (s : ListedSet ω) : BranchSet ω :=
  .mk s.decision (s.choices.map fun c => .mk c none)

/-- A leaf that a set has brought: the identifiers that lead to it, and whether it is lost, that is,
of a copy that another one has replaced. -/
structure Leaf where
  way : List String
  lost : Bool
  deriving DecidableEq, Repr

/-- The leaf that the identifiers lead to in the tree. -/
def Leaf.ofWay (way : List String) : Leaf := ⟨way, false⟩

/-- A tree in growth. `openLeaves` are the leaves of closed levels, and `fresh` are the leaves that
the level in progress has brought. -/
structure Growth (ω : Type) where
  tree : Option (BranchSet ω)
  openLeaves : List Leaf
  fresh : List Leaf

inductive Growth.Refusal where
  | noOpenLeaf
  | noSuchLeaf (id : String)
  deriving DecidableEq, Repr

namespace Growth

def start : Growth ω := ⟨none, [], []⟩

/-- The open leaves that nothing has been put behind. -/
def available (g : Growth ω) : List Leaf :=
  match g.tree with
  | some tree => g.openLeaves.filter fun leaf => (tree.at? leaf.way).isNone
  | none => []

/-- The leaves that a set goes behind, in the order in which it names them. -/
def targets (leaves : List Leaf) : Reach → Except Refusal (List Leaf)
  | .everyLeaf => if leaves.isEmpty then .error .noOpenLeaf else .ok leaves
  | .named ids =>
    List.flatten <$> ids.mapM fun id =>
      match leaves.filter (·.way.getLast? == some id) with
      | [] => .error (.noSuchLeaf id)
      | chosen => .ok chosen

/-- The ways to those of the leaves that are part of the tree. -/
def standingWays (leaves : List Leaf) : List (List String) :=
  (leaves.filter (!·.lost)).map (·.way)

/-- The ways to the branches of a set that is put behind a leaf. -/
def waysBehind (way : List String) (s : ListedSet ω) : List (List String) :=
  s.choices.map fun c => way ++ [c.id]

/-- The leaves that a set brings when it is put behind leaves, one after the other. Behind a leaf
that is met again only the last copy stays. -/
def brought (s : ListedSet ω) : List Leaf → List Leaf
  | [] => []
  | leaf :: later =>
    (waysBehind leaf.way s).map (Leaf.mk · (leaf.lost || later.contains leaf)) ++ brought s later

/-- The growth with one more set in the level. -/
def place (g : Growth ω) (s : ListedSet ω) : Except Refusal (Growth ω) :=
  match g.tree with
  | none =>
    .ok { g with
      tree := some s.leafSet
      fresh := g.fresh ++ (waysBehind [] s).map Leaf.ofWay }
  | some tree => do
    let leaves ← targets g.available s.reach
    return { g with
      tree := some ((standingWays leaves).foldl (fun t way => s.leafSet.put way t) tree)
      fresh := g.fresh ++ brought s leaves }

/-- The growth with the level closed: its leaves open, behind those that have stayed open. -/
def closeLevel (g : Growth ω) : Growth ω := ⟨g.tree, g.available ++ g.fresh, []⟩

end Growth

end SeismicTree

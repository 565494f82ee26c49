import SeismicTree.Uncertainty.Basic

/-!
# Logic trees

A branch set is a decision between weighted branches, and a branch may lead to a further branch set.
The set at the root stands for the whole tree. Weights are of any type, so that what holds of exact
weights can be said of the same trees that carry binary64 weights. Nothing is assumed about the
weights or the identifiers of a set; `add` is the only operation that looks at them.
-/

namespace SeismicTree

/-- What a branch chooses: its identifier, its weight and its value. -/
structure Choice (ω : Type) where
  id : String
  weight : ω
  value : UncertaintyValue
  deriving DecidableEq

/-- Conditions on sources by key, sorted by key. -/
structure Filters where
  entries : List (String × String)
  deriving DecidableEq

namespace Filters

def empty : Filters := ⟨[]⟩

/-- A sorted list with one more condition; a key that is already there keeps its condition. -/
def insertSorted (key value : String) : List (String × String) → List (String × String)
  | [] => [(key, value)]
  | (k, v) :: rest =>
    if key < k then (key, value) :: (k, v) :: rest
    else if key = k then (k, v) :: rest
    else (k, v) :: insertSorted key value rest

def insert (f : Filters) (key value : String) : Filters := ⟨insertSorted key value f.entries⟩

def ofList (conditions : List (String × String)) : Filters :=
  conditions.foldl (fun f (key, value) => f.insert key value) empty

def find? (f : Filters) (key : String) : Option String :=
  (f.entries.find? (·.1 == key)).map (·.2)

def isEmpty (f : Filters) : Bool := f.entries.isEmpty

end Filters

/-- What a branch set decides, for which sources, and whether its branches are taken together
instead of one at a time. -/
structure Decision where
  uncertainty : Uncertainty
  id : String
  filters : Filters
  collapsed : Bool
  deriving DecidableEq

mutual

/-- Alternative branches of a decision. -/
inductive BranchSet (ω : Type) where
  | mk (decision : Decision) (branches : List (Branch ω))

/-- A choice, and the decision that follows it, if any. -/
inductive Branch (ω : Type) where
  | mk (choice : Choice ω) (child : Option (BranchSet ω))

end

abbrev LogicTree := BranchSet Binary64

variable {ω : Type}

namespace Branch

def choice : Branch ω → Choice ω
  | mk c _ => c

def child : Branch ω → Option (BranchSet ω)
  | mk _ s => s

def id (b : Branch ω) : String := b.choice.id

def weight (b : Branch ω) : ω := b.choice.weight

def value (b : Branch ω) : UncertaintyValue := b.choice.value

def withChild (b : Branch ω) (s : Option (BranchSet ω)) : Branch ω := mk b.choice s

@[simp] theorem choice_mk (c : Choice ω) (s : Option (BranchSet ω)) : (mk c s).choice = c := rfl

@[simp] theorem child_mk (c : Choice ω) (s : Option (BranchSet ω)) : (mk c s).child = s := rfl

end Branch

namespace BranchSet

def decision : BranchSet ω → Decision
  | mk d _ => d

def branches : BranchSet ω → List (Branch ω)
  | mk _ bs => bs

@[simp] theorem decision_mk (d : Decision) (bs : List (Branch ω)) : (mk d bs).decision = d := rfl

@[simp] theorem branches_mk (d : Decision) (bs : List (Branch ω)) : (mk d bs).branches = bs := rfl

def id (s : BranchSet ω) : String := s.decision.id

def uncertainty (s : BranchSet ω) : Uncertainty := s.decision.uncertainty

def collapsed (s : BranchSet ω) : Bool := s.decision.collapsed

def ofDecision (d : Decision) : BranchSet ω := mk d []

/-- The set with one more branch, whose identifier is not taken. -/
def add (s : BranchSet ω) (b : Branch ω) : Except Failure (BranchSet ω) :=
  if s.branches.any (·.id == b.id) then
    .error { cause := .duplicate, context := { branch := some b.id, branchSet := some s.id } }
  else .ok (mk s.decision (s.branches ++ [b]))

/-- The first branch with an identifier. -/
def get (s : BranchSet ω) (id : String) : Except Failure (Branch ω) :=
  match s.branches.find? (·.id == id) with
  | some b => .ok b
  | none =>
    .error { cause := .undefined, context := { branch := some id, branchSet := some s.id } }

/-- The set with the first branch of an identifier changed. -/
def onBranch (id : String) (f : Branch ω → Branch ω) (s : BranchSet ω) : BranchSet ω :=
  mk s.decision (s.branches.modify (s.branches.findIdx (·.id == id)) f)

/-- The set reached along identifiers of branches. -/
def at? : List String → BranchSet ω → Option (BranchSet ω)
  | [], s => some s
  | id :: ids, s => (s.branches.find? (·.id == id)).bind fun b => b.child.bind (at? ids)

/-- The tree with the set reached along identifiers replaced, or put behind the leaf they lead
to. -/
def put (new : BranchSet ω) : List String → BranchSet ω → BranchSet ω
  | [], _ => new
  | [id], s => s.onBranch id (·.withChild (some new))
  | id :: ids, s => s.onBranch id fun b => b.withChild (b.child.map (put new ids))

/-- The set with a decision put behind every branch with an identifier; there has to be one. -/
def attach (s : BranchSet ω) (id : String) (child : BranchSet ω) :
    Except Failure (BranchSet ω) := do
  let _ ← s.get id
  return mk s.decision (s.branches.map fun b => if b.id = id then b.withChild (some child) else b)

/-- The set with one branch overwritten by a copy of another, by position. -/
def assign (s : BranchSet ω) (source target : Nat) : BranchSet ω :=
  match s.branches[source]? with
  | some b => mk s.decision (s.branches.set target b)
  | none => s

end BranchSet

end SeismicTree

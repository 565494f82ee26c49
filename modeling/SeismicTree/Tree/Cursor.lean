import SeismicTree.Tree.Path

/-!
# Cursors

A cursor stands on one path of a tree and moves on to the next. It keeps a stack with the branch
that is taken at each level and the branches still to come; the number of these bounds how often it
can move. A cursor at the end has an empty stack.
-/

namespace SeismicTree

variable {ω : Type}

/-- One level of a cursor: the branch taken, how many branches lie before it, and those to come. -/
structure Level (ω : Type) where
  decision : Decision
  index : Nat
  here : Branch ω
  later : List (Branch ω)

/-- A position in the enumeration of the paths of a tree; the deepest level comes first. -/
structure Cursor (ω : Type) where
  levels : List (Level ω)

namespace Level

/-- The level on the first branch of a set. A collapsed set has no branches to come. -/
def first (d : Decision) (b : Branch ω) (bs : List (Branch ω)) : Level ω :=
  ⟨d, 0, b, if d.collapsed then [] else bs⟩

/-- The choice that the level adds to the path. -/
def choice [OfNat ω 1] (l : Level ω) : Choice ω := l.decision.shown l.here.choice

end Level

mutual

def BranchSet.size : BranchSet ω → Nat
  | .mk _ bs => Branch.sizeOfAll bs

def Branch.size : Branch ω → Nat
  | .mk _ s => 1 + BranchSet.sizeBelow s

def BranchSet.sizeBelow : Option (BranchSet ω) → Nat
  | none => 0
  | some s => s.size

def Branch.sizeOfAll : List (Branch ω) → Nat
  | [] => 0
  | b :: bs => b.size + Branch.sizeOfAll bs

end

mutual

/-- The levels from the first branches of a set down to a leaf, on top of a stack. -/
def BranchSet.descend (stack : List (Level ω)) : BranchSet ω → List (Level ω)
  | .mk d bs => Branch.descendFirst d stack bs

/-- The levels from a branch down to a leaf, on top of a stack that already holds the branch. -/
def Branch.descend (stack : List (Level ω)) : Branch ω → List (Level ω)
  | .mk _ s => BranchSet.descendBelow stack s

def BranchSet.descendBelow (stack : List (Level ω)) : Option (BranchSet ω) → List (Level ω)
  | none => stack
  | some s => s.descend stack

def Branch.descendFirst (d : Decision) (stack : List (Level ω)) : List (Branch ω) → List (Level ω)
  | [] => stack
  | b :: bs => b.descend (Level.first d b bs :: stack)

end

namespace Cursor

def start (s : BranchSet ω) : Cursor ω := ⟨s.descend []⟩

def isAtEnd (c : Cursor ω) : Bool := c.levels.isEmpty

/-- The path under the cursor, unless it is at the end. -/
def path? [Mul ω] [OfNat ω 1] (c : Cursor ω) : Option (Path ω) :=
  if c.isAtEnd then none else some (Path.ofChoices (c.levels.reverse.map Level.choice))

/-- The stack after the deepest level that has a branch to come has moved on to it. -/
def advance : List (Level ω) → List (Level ω)
  | [] => []
  | l :: stack =>
    match l.later with
    | [] => advance stack
    | b :: bs => b.descend (⟨l.decision, l.index + 1, b, bs⟩ :: stack)

/-- The cursor on the next path. At the end it stays there. -/
def next (c : Cursor ω) : Cursor ω := ⟨advance c.levels⟩

/-- The branches taken, as positions in their sets from the root on. -/
def position (c : Cursor ω) : List Nat := c.levels.reverse.map (·.index)

/-- How many branches are still to come on a stack, at all depths. -/
def unvisited : List (Level ω) → Nat
  | [] => 0
  | l :: stack => Branch.sizeOfAll l.later + unvisited stack

end Cursor

theorem Level.sizeOfAll_first (d : Decision) (b : Branch ω) (bs : List (Branch ω)) :
    Branch.sizeOfAll (Level.first d b bs).later ≤ Branch.sizeOfAll bs := by
  unfold Level.first
  dsimp only
  split <;> simp [Branch.sizeOfAll]

mutual

/-- Going down adds at most the branches of the set to those that are to come. -/
theorem BranchSet.unvisited_descend (stack : List (Level ω)) :
    ∀ s : BranchSet ω,
      Cursor.unvisited (s.descend stack) ≤ Cursor.unvisited stack + s.size
  | .mk d bs => by
    simp only [BranchSet.descend, BranchSet.size]
    exact Branch.unvisited_descendFirst d stack bs

theorem Branch.unvisited_descend (stack : List (Level ω)) :
    ∀ b : Branch ω,
      Cursor.unvisited (b.descend stack) + 1 ≤ Cursor.unvisited stack + b.size
  | .mk _ s => by
    simp only [Branch.descend, Branch.size]
    have := BranchSet.unvisited_descendBelow stack s
    omega

theorem BranchSet.unvisited_descendBelow (stack : List (Level ω)) :
    ∀ s : Option (BranchSet ω),
      Cursor.unvisited (BranchSet.descendBelow stack s)
        ≤ Cursor.unvisited stack + BranchSet.sizeBelow s
  | none => by simp [BranchSet.descendBelow, BranchSet.sizeBelow]
  | some s => by
    simp only [BranchSet.descendBelow, BranchSet.sizeBelow]
    exact BranchSet.unvisited_descend stack s

theorem Branch.unvisited_descendFirst (d : Decision) (stack : List (Level ω)) :
    ∀ bs : List (Branch ω),
      Cursor.unvisited (Branch.descendFirst d stack bs)
        ≤ Cursor.unvisited stack + Branch.sizeOfAll bs
  | [] => by simp [Branch.descendFirst, Branch.sizeOfAll]
  | b :: bs => by
    simp only [Branch.descendFirst, Branch.sizeOfAll]
    have hdown := Branch.unvisited_descend (Level.first d b bs :: stack) b
    have hfirst := Level.sizeOfAll_first d b bs
    simp only [Cursor.unvisited] at hdown ⊢
    omega

end

namespace Cursor

/-- Moving on leaves fewer branches to come, unless it leads to the end. -/
theorem unvisited_advance (stack : List (Level ω)) :
    advance stack = [] ∨ unvisited (advance stack) < unvisited stack := by
  induction stack with
  | nil => exact Or.inl rfl
  | cons l stack ih =>
    cases hl : l.later with
    | nil =>
      have hskip : advance (l :: stack) = advance stack := by simp [advance, hl]
      rw [hskip]
      rcases ih with hend | hless
      · exact Or.inl hend
      · refine Or.inr ?_
        simp only [unvisited] at hless ⊢
        omega
    | cons b bs =>
      refine Or.inr ?_
      have hmove : advance (l :: stack)
          = b.descend (⟨l.decision, l.index + 1, b, bs⟩ :: stack) := by simp [advance, hl]
      rw [hmove]
      have hdown := Branch.unvisited_descend (⟨l.decision, l.index + 1, b, bs⟩ :: stack) b
      simp only [unvisited, hl, Branch.sizeOfAll] at hdown ⊢
      omega

/-- The paths from a cursor on. -/
def paths [Mul ω] [OfNat ω 1] (c : Cursor ω) : List (Path ω) :=
  match c.path? with
  | none => []
  | some p => if c.next.isAtEnd then [p] else p :: paths c.next
termination_by unvisited c.levels
decreasing_by
  rcases unvisited_advance c.levels with hend | hless
  · simp_all [isAtEnd, next]
  · exact hless

end Cursor

end SeismicTree

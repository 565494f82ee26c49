import SeismicTree.Tree.Cursor
import SeismicTree.Proofs.TreeSets
import Mathlib.Logic.Function.Iterate
import Mathlib.Data.List.Lex

/-!
# A cursor goes through the paths of the recursion

A stack of levels stands on one walk and has others to come: behind the later branches of every
level lie whole walks, and the walks of a deeper level come first. Moving on drops the walk that the
stack stands on and nothing else. The positions on the way only grow, so no branch is taken twice in
one place. Nothing is assumed about identifiers, and weights need no law of multiplication.
-/

namespace SeismicTree

variable {ω : Type}

namespace Decision

theorem explored_map {α β : Type} (d : Decision) (f : α → β) (items : List α) :
    d.explored (items.map f) = (d.explored items).map f := by
  unfold explored
  split
  · exact List.map_take.symm
  · rfl

/-- Of a list with a first branch, the first one is explored, and the rest unless the decision is
collapsed. -/
theorem explored_cons (d : Decision) (b : Branch ω) (bs : List (Branch ω)) :
    d.explored (b :: bs) = b :: (Level.first d b bs).later := by
  unfold explored Level.first
  split <;> rfl

end Decision

section Walks
variable [OfNat ω 1]

theorem Branch.walks_eq (d : Decision) (b : Branch ω) :
    b.walks d = (BranchSet.walksBelow b.child).map (d.shown b.choice :: ·) := by
  cases b
  rfl

theorem Branch.walksOfAll_eq (d : Decision) (bs : List (Branch ω)) :
    Branch.walksOfAll d bs = bs.map (·.walks d) := by
  induction bs with
  | nil => rfl
  | cons b bs ih => simp only [Branch.walksOfAll, List.map_cons, ih]

/-- The walks of a set are those of its explored branches, in order. -/
theorem BranchSet.walks_mk (d : Decision) (bs : List (Branch ω)) :
    (BranchSet.mk d bs).walks = (d.explored bs).flatMap (·.walks d) := by
  rw [BranchSet.walks, Branch.walksOfAll_eq, Decision.explored_map, List.flatMap_def]

end Walks

/-- Going down from a branch is going down from the set behind it. -/
theorem Branch.descend_eq (b : Branch ω) (stack : List (Level ω)) :
    b.descend stack = BranchSet.descendBelow stack b.child := by
  cases b
  rfl

namespace Cursor

/-- The choices taken on a stack, the root's first. -/
def taken [OfNat ω 1] (stack : List (Level ω)) : List (Choice ω) :=
  stack.reverse.map Level.choice

/-- The walks that a stack has still to come to. -/
def coming [OfNat ω 1] : List (Level ω) → List (List (Choice ω))
  | [] => []
  | l :: stack => (l.later.flatMap (·.walks l.decision)).map (taken stack ++ ·) ++ coming stack

/-- The walk that a stack stands on and those to come; there are none at the end. -/
def trail [OfNat ω 1] : List (Level ω) → List (List (Choice ω))
  | [] => []
  | l :: stack => taken (l :: stack) :: coming (l :: stack)

/-- No set behind the branches to come is without branches, at any depth. -/
def Ready (stack : List (Level ω)) : Prop :=
  ∀ l ∈ stack, ∀ b ∈ l.later, ∀ t, b.child = some t → t.Populated

section Trail
variable [OfNat ω 1]

theorem taken_cons (l : Level ω) (stack : List (Level ω)) :
    taken (l :: stack) = taken stack ++ [l.choice] := by
  simp [taken]

theorem coming_eq_tail (stack : List (Level ω)) : coming stack = (trail stack).tail := by
  cases stack <;> rfl

theorem trail_eq_nil (stack : List (Level ω)) : trail stack = [] ↔ stack = [] := by
  cases stack <;> simp [trail]

/-- Going down from a branch that a stack already holds: the walks through the branch come in front
of what the stack has to come. The premise is the law for the set behind the branch. -/
theorem trail_descend_onto (l : Level ω) (stack : List (Level ω))
    (below : ∀ t, l.here.child = some t → ∀ stack : List (Level ω),
      trail (t.descend stack) = t.walks.map (taken stack ++ ·) ++ coming stack) :
    trail (l.here.descend (l :: stack)) =
      (l.here.walks l.decision).map (taken stack ++ ·) ++ coming (l :: stack) := by
  have hwalks : (l.here.walks l.decision).map (taken stack ++ ·) =
      (BranchSet.walksBelow l.here.child).map (taken (l :: stack) ++ ·) := by
    rw [Branch.walks_eq, List.map_map, taken_cons]
    refine List.map_congr_left fun walk _ => ?_
    simp [Level.choice]
  rw [hwalks, Branch.descend_eq]
  cases hchild : l.here.child with
  | none => simp [BranchSet.descendBelow, BranchSet.walksBelow, trail]
  | some t => exact below t hchild (l :: stack)

/-- Going down from a set puts its walks in front of what the stack has to come. -/
theorem trail_descend (s : BranchSet ω) (hs : s.Populated) (stack : List (Level ω)) :
    trail (s.descend stack) = s.walks.map (taken stack ++ ·) ++ coming stack := by
  induction s using BranchSet.induction_branches generalizing stack with
  | step d bs ih =>
    obtain ⟨hne, hbelow⟩ := BranchSet.populated_mk.mp hs
    cases bs with
    | nil => exact absurd rfl hne
    | cons b bs =>
      have hfirst := trail_descend_onto (Level.first d b bs) stack
        (fun t ht => ih b List.mem_cons_self t ht (hbelow b List.mem_cons_self t ht))
      change trail (b.descend (Level.first d b bs :: stack)) = _
      rw [BranchSet.walks_mk, Decision.explored_cons, List.flatMap_cons, List.map_append,
        List.append_assoc]
      exact hfirst

/-- Moving on drops the first walk of the trail. -/
theorem trail_advance (stack : List (Level ω)) (ready : Ready stack) :
    trail (advance stack) = coming stack := by
  induction stack with
  | nil => rfl
  | cons l stack ih =>
    cases hl : l.later with
    | nil =>
      have hskip : advance (l :: stack) = advance stack := by simp [advance, hl]
      rw [hskip, ih fun l' hl' => ready l' (List.mem_cons_of_mem l hl')]
      simp [coming, hl]
    | cons b bs =>
      have hmove : advance (l :: stack)
          = b.descend (⟨l.decision, l.index + 1, b, bs⟩ :: stack) := by simp [advance, hl]
      have hb : b ∈ l.later := by rw [hl]; exact List.mem_cons_self
      rw [hmove, trail_descend_onto ⟨l.decision, l.index + 1, b, bs⟩ stack
        (fun t ht stack => trail_descend t (ready l List.mem_cons_self b hb t ht) stack)]
      simp [coming, hl]

end Trail

theorem ready_cons {l : Level ω} {stack : List (Level ω)} :
    Ready (l :: stack) ↔
      (∀ b ∈ l.later, ∀ t, b.child = some t → t.Populated) ∧ Ready stack :=
  List.forall_mem_cons

theorem ready_descend (s : BranchSet ω) (hs : s.Populated) (stack : List (Level ω))
    (ready : Ready stack) : Ready (s.descend stack) := by
  induction s using BranchSet.induction_branches generalizing stack with
  | step d bs ih =>
    obtain ⟨_, hbelow⟩ := BranchSet.populated_mk.mp hs
    cases bs with
    | nil => exact ready
    | cons b bs =>
      have hlater : ∀ b' ∈ (Level.first d b bs).later, b' ∈ b :: bs := by
        intro b' hb'
        unfold Level.first at hb'
        split at hb'
        · cases hb'
        · exact List.mem_cons_of_mem b hb'
      have hpushed : Ready (Level.first d b bs :: stack) :=
        ready_cons.mpr ⟨fun b' hb' t ht => hbelow b' (hlater b' hb') t ht, ready⟩
      change Ready (b.descend (Level.first d b bs :: stack))
      rw [Branch.descend_eq]
      cases hchild : b.child with
      | none => exact hpushed
      | some t =>
        have ht := hbelow b List.mem_cons_self t hchild
        exact ih b List.mem_cons_self t hchild ht _ hpushed

theorem ready_advance (stack : List (Level ω)) (ready : Ready stack) : Ready (advance stack) := by
  induction stack with
  | nil => exact ready
  | cons l stack ih =>
    obtain ⟨hl, hstack⟩ := ready_cons.mp ready
    cases hlater : l.later with
    | nil => simpa [advance, hlater] using ih hstack
    | cons b bs =>
      have hpushed : Ready (⟨l.decision, l.index + 1, b, bs⟩ :: stack) := by
        refine ready_cons.mpr ⟨fun b' hb' => hl b' ?_, hstack⟩
        rw [hlater]
        exact List.mem_cons_of_mem b hb'
      have hb : b ∈ l.later := by rw [hlater]; exact List.mem_cons_self
      simp only [advance, hlater, Branch.descend_eq]
      cases hchild : b.child with
      | none => exact hpushed
      | some t => exact ready_descend t (hl b hb t hchild) _ hpushed

section Run
variable [OfNat ω 1]

theorem trail_next (c : Cursor ω) (ready : Ready c.levels) :
    trail c.next.levels = (trail c.levels).tail := by
  rw [← coming_eq_tail]
  exact trail_advance c.levels ready

/-- After some moves the trail has lost as many walks from its front. -/
theorem trail_iterate (n : Nat) (c : Cursor ω) (ready : Ready c.levels) :
    trail (next^[n] c).levels = (trail c.levels).drop n := by
  induction n generalizing c with
  | zero => rfl
  | succ n ih =>
    rw [Function.iterate_succ_apply, ih (next c) (ready_advance c.levels ready),
      trail_next c ready, List.drop_tail]

theorem isAtEnd_iff (c : Cursor ω) : c.isAtEnd = true ↔ trail c.levels = [] := by
  rw [trail_eq_nil, isAtEnd, List.isEmpty_iff]

theorem path?_eq_head? [Mul ω] (c : Cursor ω) :
    c.path? = (trail c.levels).head?.map Path.ofChoices := by
  obtain ⟨levels⟩ := c
  cases levels <;> rfl

/-- The recursion of the cursor itself follows the trail. -/
theorem paths_eq_trail [Mul ω] (c : Cursor ω) (ready : Ready c.levels) :
    c.paths = (trail c.levels).map Path.ofChoices := by
  fun_induction paths c with
  | case1 c hpath =>
    rw [path?_eq_head?, Option.map_eq_none_iff, List.head?_eq_none_iff] at hpath
    rw [hpath]
    rfl
  | case2 c p hpath hend =>
    rw [path?_eq_head?, Option.map_eq_some_iff] at hpath
    obtain ⟨walk, hwalk, rfl⟩ := hpath
    have hlast : (trail c.levels).tail = [] := by
      rw [← trail_next c ready]
      exact (isAtEnd_iff c.next).mp hend
    rw [List.eq_cons_of_mem_head? hwalk, hlast]
    rfl
  | case3 c p hpath hend ih =>
    rw [path?_eq_head?, Option.map_eq_some_iff] at hpath
    obtain ⟨walk, hwalk, rfl⟩ := hpath
    rw [ih (ready_advance c.levels ready), trail_next c ready,
      List.eq_cons_of_mem_head? hwalk]
    rfl

theorem start_trail (s : BranchSet ω) (hs : s.Populated) : trail (start s).levels = s.walks := by
  simpa [start, coming, taken] using trail_descend s hs []

omit [OfNat ω 1] in
theorem ready_start (s : BranchSet ω) (hs : s.Populated) : Ready (start s).levels :=
  ready_descend s hs [] (fun _ h => by cases h)

end Run

theorem suffix_descend (s : BranchSet ω) (stack : List (Level ω)) :
    stack <:+ s.descend stack := by
  induction s using BranchSet.induction_branches generalizing stack with
  | step d bs ih =>
    cases bs with
    | nil => exact List.suffix_rfl
    | cons b bs =>
      have hpush := List.suffix_cons (Level.first d b bs) stack
      change stack <:+ b.descend (Level.first d b bs :: stack)
      rw [Branch.descend_eq]
      cases hchild : b.child with
      | none => exact hpush
      | some t => exact hpush.trans (ih b List.mem_cons_self t hchild _)

theorem suffix_descend_branch (b : Branch ω) (stack : List (Level ω)) :
    stack <:+ b.descend stack := by
  rw [Branch.descend_eq]
  cases b.child with
  | none => exact List.suffix_rfl
  | some t => exact suffix_descend t stack

/-- Moving on keeps the branches of some levels from the root on, and takes a later branch at the
level below them. -/
theorem position_next (c : Cursor ω) (more : c.next.isAtEnd = false) :
    ∃ kept i old new, c.position = kept ++ i :: old ∧ c.next.position = kept ++ (i + 1) :: new := by
  obtain ⟨stack⟩ := c
  induction stack with
  | nil => cases more
  | cons l stack ih =>
    cases hl : l.later with
    | nil =>
      have hskip : next ⟨l :: stack⟩ = next ⟨stack⟩ := by simp [next, advance, hl]
      rw [hskip] at more ⊢
      obtain ⟨kept, i, old, new, hold, hnew⟩ := ih more
      refine ⟨kept, i, old ++ [l.index], new, ?_, hnew⟩
      simp only [position] at hold
      simp [position, hold]
    | cons b bs =>
      obtain ⟨top, htop⟩ := suffix_descend_branch b (⟨l.decision, l.index + 1, b, bs⟩ :: stack)
      refine ⟨stack.reverse.map (·.index), l.index, [], top.reverse.map (·.index), ?_, ?_⟩
      · simp [position]
      · simp [position, next, advance, hl, ← htop]

theorem position_lt_next (c : Cursor ω) (more : c.next.isAtEnd = false) :
    c.position < c.next.position := by
  obtain ⟨kept, i, old, new, hold, hnew⟩ := position_next c more
  rw [hold, hnew]
  exact List.append_left_lt (List.cons_lt_cons_iff.mpr (Or.inl (Nat.lt_succ_self i)))

/-- The positions on the way to a cursor that is not at the end come in lexicographic order. -/
theorem position_iterate_lt (c : Cursor ω) {i j : Nat} (hij : i < j)
    (more : ∀ k ≤ j, (next^[k] c).isAtEnd = false) :
    (next^[i] c).position < (next^[j] c).position := by
  induction j with
  | zero => omega
  | succ j ih =>
    have hlast : (next^[j] c).position < (next^[j + 1] c).position := by
      have hmore := more (j + 1) (Nat.le_refl _)
      rw [Function.iterate_succ_apply'] at hmore ⊢
      exact position_lt_next _ hmore
    by_cases h : i = j
    · exact h ▸ hlast
    · exact List.lt_trans (ih (by omega) fun k hk => more k (by omega)) hlast

section Enumeration
variable [Mul ω] [OfNat ω 1]

theorem length_paths (s : BranchSet ω) : s.paths.length = s.walks.length :=
  List.length_map _

theorem isAtEnd_iterate_start {s : BranchSet ω} (hs : s.Populated) (n : Nat) :
    (next^[n] (start s)).isAtEnd = true ↔ s.paths.length ≤ n := by
  rw [isAtEnd_iff, trail_iterate n (start s) (ready_start s hs), start_trail s hs,
    List.drop_eq_nil_iff, length_paths]

theorem path?_iterate_start {s : BranchSet ω} (hs : s.Populated) (n : Nat) :
    (next^[n] (start s)).path? = s.paths[n]? := by
  rw [path?_eq_head?, trail_iterate n (start s) (ready_start s hs), start_trail s hs,
    List.head?_drop, BranchSet.paths, List.getElem?_map]

/-- A cursor at the start of a tree without empty sets comes to the end after as many moves as the
recursion has paths, and stands on the paths of the recursion on its way, in order. It is never in
one position twice. A start depends on the tree alone, whatever other cursors have done. -/
theorem start_enumerates {s : BranchSet ω} (hs : s.Populated) :
    (start s).paths = s.paths ∧
      (∀ n, (next^[n] (start s)).path? = s.paths[n]?) ∧
      (∀ n, (next^[n] (start s)).isAtEnd = true ↔ s.paths.length ≤ n) ∧
      (∀ i j, i < j → j < s.paths.length →
        (next^[i] (start s)).position < (next^[j] (start s)).position) ∧
      ∀ p ∈ s.paths, p.weight = pathWeight p.choices := by
  refine ⟨?_, path?_iterate_start hs, isAtEnd_iterate_start hs, ?_, ?_⟩
  · rw [paths_eq_trail (start s) (ready_start s hs), start_trail s hs, BranchSet.paths]
  · intro i j hij hj
    refine position_iterate_lt (start s) hij fun k hk => ?_
    rw [Bool.eq_false_iff, ne_eq, isAtEnd_iterate_start hs]
    omega
  · intro p hp
    obtain ⟨choices, _, rfl⟩ := List.mem_map.mp hp
    rfl

end Enumeration

/-- A tree with a collapsed set behind one branch and nothing behind the other. -/
def ragged : BranchSet Nat :=
  .mk ⟨.sourceModel, "models", .empty, false⟩
    [.mk ⟨"b1", 2, .model "a.xml"⟩ (some <|
      .mk ⟨.bGRRelative, "slopes", .empty, true⟩
        [.mk ⟨"c1", 5, .number 0⟩ (some <|
          .mk ⟨.gmpeModel, "motions", .empty, false⟩
            [.mk ⟨"d1", 3, .model "x"⟩ none, .mk ⟨"d2", 4, .model "y"⟩ none]),
        .mk ⟨"c2", 7, .number 1⟩ none]),
    .mk ⟨"b2", 6, .model "b.xml"⟩ none]

theorem start_enumerates_ragged :
    ragged.Populated ∧
      (start ragged).paths.map (fun p => (p.weight, p.ids)) =
        [(6, ["b1", "c1", "d1"]), (8, ["b1", "c1", "d2"]), (6, ["b2"])] := by
  have populated : ragged.Populated := by
    simp [ragged, BranchSet.populated_mk, Branch.child]
  refine ⟨populated, ?_⟩
  rw [(start_enumerates populated).1]
  rfl

end Cursor

end SeismicTree

import SeismicTree.Tree.Basic

/-!
# The sets of a tree

A tree is taken apart into its branch sets, at all depths, and into the occurrences of branches in
them. What is said of all sets of a tree is said without a recursion of its own. Induction goes from
the sets behind the branches of a set to the set itself.
-/

namespace SeismicTree

variable {ω : Type}

mutual

/-- The branch sets of a tree, each in front of those behind its branches. -/
def BranchSet.sets : BranchSet ω → List (BranchSet ω)
  | .mk d bs => .mk d bs :: Branch.setsOfAll bs

def Branch.sets : Branch ω → List (BranchSet ω)
  | .mk _ s => BranchSet.setsBelow s

def BranchSet.setsBelow : Option (BranchSet ω) → List (BranchSet ω)
  | none => []
  | some s => s.sets

def Branch.setsOfAll : List (Branch ω) → List (BranchSet ω)
  | [] => []
  | b :: bs => b.sets ++ Branch.setsOfAll bs

end

namespace BranchSet

def occurrences (s : BranchSet ω) : List (Branch ω) := s.sets.flatMap branches

/-- No set of the tree is without branches. -/
def Populated (s : BranchSet ω) : Prop := ∀ t ∈ s.sets, t.branches ≠ []

/-- No set of the tree has two branches of one identifier. -/
def Distinct (s : BranchSet ω) : Prop := ∀ t ∈ s.sets, (t.branches.map (·.id)).Nodup

@[elab_as_elim]
theorem induction_branches {P : BranchSet ω → Prop}
    (step : ∀ d bs, (∀ b ∈ bs, ∀ t, b.child = some t → P t) → P (.mk d bs)) (s : BranchSet ω) :
    P s := by
  refine @BranchSet.rec ω P (fun b => ∀ t, b.child = some t → P t)
    (fun bs => ∀ b ∈ bs, ∀ t, b.child = some t → P t) (fun s => ∀ t, s = some t → P t)
    step ?branch ?nil ?cons ?none ?some s
  case branch => exact fun c s ih => ih
  case nil => intro b hb; cases hb
  case cons =>
    intro b bs hb hbs b' hb'
    rcases List.mem_cons.mp hb' with rfl | hb'
    · exact hb
    · exact hbs b' hb'
  case none => intro t ht; cases ht
  case some => intro s hs t ht; cases ht; exact hs

end BranchSet

theorem Branch.mem_setsOfAll {t : BranchSet ω} {bs : List (Branch ω)} :
    t ∈ Branch.setsOfAll bs ↔ ∃ b ∈ bs, ∃ u, b.child = some u ∧ t ∈ u.sets := by
  induction bs with
  | nil => simp [Branch.setsOfAll]
  | cons b bs ih =>
    obtain ⟨c, s⟩ := b
    cases s <;> simp [Branch.setsOfAll, Branch.sets, BranchSet.setsBelow, ih]

namespace BranchSet

theorem mem_sets_mk {t : BranchSet ω} {d : Decision} {bs : List (Branch ω)} :
    t ∈ (mk d bs).sets ↔ t = mk d bs ∨ ∃ b ∈ bs, ∃ u, b.child = some u ∧ t ∈ u.sets := by
  simp only [sets, List.mem_cons, Branch.mem_setsOfAll]

theorem mem_sets_self (s : BranchSet ω) : s ∈ s.sets := by
  cases s
  exact mem_sets_mk.mpr (Or.inl rfl)

/-- What holds of all sets of a tree holds of its root and of all sets behind the root. -/
theorem forall_sets_mk {P : BranchSet ω → Prop} {d : Decision} {bs : List (Branch ω)} :
    (∀ t ∈ (mk d bs).sets, P t) ↔
      P (mk d bs) ∧ ∀ b ∈ bs, ∀ u, b.child = some u → ∀ t ∈ u.sets, P t := by
  constructor
  · intro h
    refine ⟨h _ (mem_sets_self _), fun b hb u hu t ht => ?_⟩
    exact h t (mem_sets_mk.mpr (Or.inr ⟨b, hb, u, hu, ht⟩))
  · rintro ⟨hroot, hbelow⟩ t ht
    rcases mem_sets_mk.mp ht with rfl | ⟨b, hb, u, hu, htu⟩
    · exact hroot
    · exact hbelow b hb u hu t htu

theorem mem_occurrences_mk {b : Branch ω} {d : Decision} {bs : List (Branch ω)} :
    b ∈ (mk d bs).occurrences ↔
      b ∈ bs ∨ ∃ b' ∈ bs, ∃ u, b'.child = some u ∧ b ∈ u.occurrences := by
  simp only [occurrences, List.mem_flatMap, mem_sets_mk]
  constructor
  · rintro ⟨t, rfl | ⟨b', hb', u, hu, ht⟩, hb⟩
    · exact Or.inl hb
    · exact Or.inr ⟨b', hb', u, hu, t, ht, hb⟩
  · rintro (hb | ⟨b', hb', u, hu, t, ht, hb⟩)
    · exact ⟨mk d bs, Or.inl rfl, hb⟩
    · exact ⟨t, Or.inr ⟨b', hb', u, hu, ht⟩, hb⟩

theorem populated_mk {d : Decision} {bs : List (Branch ω)} :
    (mk d bs).Populated ↔ bs ≠ [] ∧ ∀ b ∈ bs, ∀ t, b.child = some t → t.Populated :=
  forall_sets_mk

theorem distinct_mk {d : Decision} {bs : List (Branch ω)} :
    (mk d bs).Distinct ↔
      (bs.map (·.id)).Nodup ∧ ∀ b ∈ bs, ∀ t, b.child = some t → t.Distinct :=
  forall_sets_mk

theorem add_eq_ok_iff {s s' : BranchSet ω} {b : Branch ω} :
    s.add b = .ok s' ↔ b.id ∉ s.branches.map (·.id) ∧ mk s.decision (s.branches ++ [b]) = s' := by
  have htaken : s.branches.any (·.id == b.id) = true ↔ b.id ∈ s.branches.map (·.id) := by
    simp only [List.any_eq_true, beq_iff_eq, List.mem_map]
  rw [add]
  split
  · rename_i h
    constructor
    · intro h'; cases h'
    · rintro ⟨hnew, _⟩
      exact absurd (htaken.mp h) hnew
  · rename_i h
    constructor
    · intro h'
      exact ⟨fun hmem => h (htaken.mpr hmem), Except.ok.inj h'⟩
    · rintro ⟨_, rfl⟩
      rfl

end BranchSet

end SeismicTree

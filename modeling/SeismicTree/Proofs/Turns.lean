import SeismicTree.Proofs.Routes

/-!
# Turns

A turn is a set with the position of the branch that is taken in it. Turns from the root to a leaf
are a route whose branches are known by their positions, so that two branches of a set are told
apart whatever their identifiers, weights and values are. A cursor that is not at the end stands on
turns: the levels of its stack are theirs, in order, and they lead from the root to a leaf. A step
keeps this, so every move does.
-/

namespace SeismicTree

variable {ω : Type}

/-- A set and the position of one of its branches. -/
structure Turn (ω : Type) where
  set : BranchSet ω
  index : Fin set.branches.length

namespace Turn

def branch (x : Turn ω) : Branch ω := x.set.branches.get x.index

def stage (x : Turn ω) : Stage ω := ⟨x.set, x.branch, List.get_mem x.set.branches x.index⟩

def level (x : Turn ω) : Level ω where
  decision := x.set.decision
  index := x.index
  here := x.branch
  later := if x.set.collapsed then [] else x.set.branches.drop (x.index + 1)

/-- An enumeration takes the branch: of a collapsed set it takes the first one. -/
def Explored (x : Turn ω) : Prop := x.set.collapsed = true → (x.index : Nat) = 0

theorem explored_stage {x : Turn ω} (h : x.Explored) : x.stage.Explored := by
  cases hcollapsed : x.set.collapsed with
  | false => exact Stage.explored_of_plain hcollapsed
  | true =>
    have hfirst : x.set.branches.take 1 = [x.branch] := by
      have hpos : 0 < x.set.branches.length := x.index.pos
      have hindex : x.index = ⟨0, hpos⟩ := Fin.ext (h hcollapsed)
      rw [branch, hindex, List.take_one, List.head?_eq_getElem?, List.getElem?_eq_getElem hpos]
      rfl
    have hdecision : x.set.decision.collapsed = true := hcollapsed
    change x.branch ∈ x.set.decision.explored x.set.branches
    rw [Decision.explored, if_pos hdecision, hfirst]
    exact List.mem_singleton_self _

end Turn

namespace BranchSet

/-- The turns from a set down to a leaf. -/
def Course (s : BranchSet ω) (turns : List (Turn ω)) : Prop := s.Route (turns.map Turn.stage)

theorem route_cons_iff {s : BranchSet ω} {x : Stage ω} {rest : List (Stage ω)} :
    s.Route (x :: rest) ↔ x.set = s ∧
      ((x.branch.child = none ∧ rest = []) ∨ ∃ t, x.branch.child = some t ∧ t.Route rest) := by
  constructor
  · intro h
    cases h with
    | leaf mem last => exact ⟨rfl, Or.inl ⟨last, rfl⟩⟩
    | step mem child below => exact ⟨rfl, Or.inr ⟨_, child, below⟩⟩
  · rintro ⟨rfl, ⟨last, rfl⟩ | ⟨t, child, below⟩⟩
    · exact .leaf x.mem last
    · exact .step x.mem child below

theorem course_cons_iff {s : BranchSet ω} {x : Turn ω} {rest : List (Turn ω)} :
    s.Course (x :: rest) ↔ x.set = s ∧
      ((x.branch.child = none ∧ rest = []) ∨ ∃ t, x.branch.child = some t ∧ t.Course rest) := by
  rw [Course, List.map_cons, route_cons_iff, List.map_eq_nil_iff]
  rfl

theorem not_course_nil (s : BranchSet ω) : ¬ s.Course [] := by
  intro h
  obtain ⟨_, _, hcons, _⟩ := Route.exists_cons h
  cases hcons

/-- Turns from a tree to what is behind the branch of the last of them, which stands first as on the
stack of a cursor. -/
inductive Leads (s : BranchSet ω) : List (Turn ω) → Option (BranchSet ω) → Prop where
  | root : Leads s [] (some s)
  | turn {turns : List (Turn ω)} (x : Turn ω) (above : Leads s turns (some x.set)) :
      Leads s (x :: turns) x.branch.child

variable {s t : BranchSet ω} {turns : List (Turn ω)}

theorem Leads.sets_subset {o : Option (BranchSet ω)} (h : s.Leads turns o) :
    ∀ t, o = some t → t.sets ⊆ s.sets := by
  induction h with
  | root =>
    intro t ht
    cases ht
    exact fun _ hu => hu
  | turn x above ih =>
    exact fun t ht _ hu => ih x.set rfl (sets_of_child x.stage.mem ht hu)

theorem Leads.route {o : Option (BranchSet ω)} (h : s.Leads turns o) :
    ∀ t rest, o = some t → t.Route rest → s.Route (turns.reverse.map Turn.stage ++ rest) := by
  induction h with
  | root =>
    intro t rest ht hrest
    cases ht
    exact hrest
  | turn x above ih =>
    intro t rest ht hrest
    have hroute := ih x.set (x.stage :: rest) rfl (.step x.stage.mem ht hrest)
    simpa using hroute

/-- Turns that lead to a leaf go all the way down. -/
theorem Leads.course (h : s.Leads turns none) : s.Course turns.reverse := by
  generalize ho : (none : Option (BranchSet ω)) = o at h
  cases h with
  | root => cases ho
  | turn x above =>
    have hroute := above.route x.set [x.stage] rfl (.leaf x.stage.mem ho.symm)
    simpa [Course] using hroute

end BranchSet

namespace Cursor
variable {s t : BranchSet ω} {turns : List (Turn ω)}

/-- A stack holds the levels of turns that lead from a tree to a leaf. -/
def Holds (s : BranchSet ω) (stack : List (Level ω)) : Prop :=
  ∃ turns, s.Leads turns none ∧ stack = turns.map Turn.level ∧ ∀ x ∈ turns, x.Explored

/-- Going down from a branch that the stack already holds. The premise is the law for the set behind
the branch. -/
theorem holds_descend_onto (x : Turn ω) (above : s.Leads turns (some x.set)) (here : x.Explored)
    (explored : ∀ y ∈ turns, y.Explored)
    (below : ∀ t, x.branch.child = some t → s.Leads (x :: turns) (some t) →
      (∀ y ∈ x :: turns, y.Explored) → Holds s (t.descend ((x :: turns).map Turn.level))) :
    Holds s (x.branch.descend (x.level :: turns.map Turn.level)) := by
  have hleads := BranchSet.Leads.turn x above
  have hexplored := List.forall_mem_cons.mpr ⟨here, explored⟩
  rw [Branch.descend_eq]
  cases hchild : x.branch.child with
  | none =>
    rw [hchild] at hleads
    exact ⟨x :: turns, hleads, rfl, hexplored⟩
  | some t =>
    rw [hchild] at hleads
    exact below t hchild hleads hexplored

/-- Going down from a set to which the turns of a stack lead. -/
theorem holds_descend (populated : t.Populated) (leads : s.Leads turns (some t))
    (explored : ∀ y ∈ turns, y.Explored) : Holds s (t.descend (turns.map Turn.level)) := by
  induction t using BranchSet.induction_branches generalizing turns with
  | step d bs ih =>
    obtain ⟨hne, hbelow⟩ := BranchSet.populated_mk.mp populated
    obtain ⟨b, rest, rfl⟩ := List.exists_cons_of_ne_nil hne
    let x : Turn ω := ⟨.mk d (b :: rest), ⟨0, Nat.zero_lt_succ _⟩⟩
    exact holds_descend_onto x leads (fun _ => rfl) explored fun t ht =>
      ih b List.mem_cons_self t ht (hbelow b List.mem_cons_self t ht)

/-- The branches that a turn leaves for later are those at the positions behind it, unless its set
is collapsed. -/
theorem later_eq_cons {x : Turn ω} {b : Branch ω} {bs : List (Branch ω)}
    (h : x.level.later = b :: bs) :
    ∃ y : Turn ω, y.Explored ∧ y.set = x.set ∧
      y.level = ⟨x.set.decision, x.index + 1, b, bs⟩ ∧ y.branch = b := by
  cases hcollapsed : x.set.collapsed with
  | true =>
    rw [Turn.level, if_pos hcollapsed] at h
    cases h
  | false =>
    rw [Turn.level, hcollapsed] at h
    change x.set.branches.drop (x.index + 1) = b :: bs at h
    have hinside : x.index + 1 < x.set.branches.length := by
      rw [← List.drop_eq_nil_iff.not.trans Nat.not_le, h]
      exact List.cons_ne_nil _ _
    rw [List.drop_eq_getElem_cons hinside] at h
    obtain ⟨hbranch, hlater⟩ := List.cons.inj h
    refine ⟨⟨x.set, ⟨x.index + 1, hinside⟩⟩, fun h => ?_, rfl, ?_, hbranch⟩
    · rw [hcollapsed] at h
      cases h
    · rw [Turn.level, hcollapsed, Turn.branch]
      exact congrArg₂ (Level.mk x.set.decision (x.index + 1)) hbranch hlater

/-- Moving on comes to the end, or to a stack that holds turns again. -/
theorem holds_advance (populated : s.Populated) {o : Option (BranchSet ω)} (leads : s.Leads turns o)
    (explored : ∀ x ∈ turns, x.Explored) :
    advance (turns.map Turn.level) = [] ∨ Holds s (advance (turns.map Turn.level)) := by
  induction leads with
  | root => exact Or.inl rfl
  | @turn turns x above ih =>
    obtain ⟨_, hturns⟩ := List.forall_mem_cons.mp explored
    cases hlater : x.level.later with
    | nil =>
      have hskip : advance ((x :: turns).map Turn.level) = advance (turns.map Turn.level) := by
        simp [advance, hlater]
      rw [hskip]
      exact ih hturns
    | cons b bs =>
      obtain ⟨y, hy, hset, hlevel, rfl⟩ := later_eq_cons hlater
      have hmove : advance ((x :: turns).map Turn.level)
          = y.branch.descend (y.level :: turns.map Turn.level) := by
        simp only [List.map_cons, advance, hlater, hlevel]
        rfl
      rw [hmove]
      refine Or.inr (holds_descend_onto y (hset ▸ above) hy hturns fun t ht hleads => ?_)
      exact holds_descend (fun u hu => populated u (hleads.sets_subset t rfl hu)) hleads

theorem holds_iterate (populated : s.Populated) (n : Nat) :
    (next^[n] (start s)).levels = [] ∨ Holds s (next^[n] (start s)).levels := by
  induction n with
  | zero => exact Or.inr (holds_descend populated .root (by simp))
  | succ n ih =>
    rw [Function.iterate_succ_apply']
    rcases ih with hend | ⟨turns, hleads, hstack, hexplored⟩
    · left
      rw [next, hend]
      rfl
    · rw [next, hstack]
      exact holds_advance populated hleads hexplored

/-- A cursor stands on turns from the root of a tree to a leaf: its levels are theirs. -/
structure StandsOn (c : Cursor ω) (s : BranchSet ω) (turns : List (Turn ω)) : Prop where
  course : s.Course turns
  levels : c.levels.reverse = turns.map Turn.level
  explored : ∀ x ∈ turns, x.Explored

/-- Every cursor on its way from the start to the end stands on turns. -/
theorem exists_standsOn (populated : s.Populated) {n : Nat}
    (more : (next^[n] (start s)).isAtEnd = false) :
    ∃ turns, (next^[n] (start s)).StandsOn s turns := by
  rcases holds_iterate populated n with hend | ⟨turns, hleads, hstack, hexplored⟩
  · rw [isAtEnd, hend] at more
    cases more
  · refine ⟨turns.reverse, hleads.course, ?_, fun x hx => hexplored x (List.mem_reverse.mp hx)⟩
    rw [hstack, List.map_reverse]

/-- The path under a cursor shows the turns that it stands on. -/
theorem StandsOn.path? [Mul ω] [OfNat ω 1] {c : Cursor ω} (h : c.StandsOn s turns) :
    c.path? = some (Path.ofChoices (turns.map (·.stage.shown))) := by
  have hmore : c.isAtEnd = false := by
    rw [isAtEnd, List.isEmpty_eq_false_iff]
    intro hend
    have hlevels := h.levels
    rw [hend, List.reverse_nil, eq_comm, List.map_eq_nil_iff] at hlevels
    exact s.not_course_nil (hlevels ▸ h.course)
  rw [Cursor.path?, hmore, h.levels, List.map_map]
  rfl

/-- Every path that comes under the cursor shows turns from the root to a leaf. -/
theorem exists_standsOn_path [Mul ω] [OfNat ω 1] (populated : s.Populated) {n : Nat} {p : Path ω}
    (h : (next^[n] (start s)).path? = some p) :
    ∃ turns, (next^[n] (start s)).StandsOn s turns ∧
      p = Path.ofChoices (turns.map (·.stage.shown)) := by
  have hmore : (next^[n] (start s)).isAtEnd = false := by
    cases hend : (next^[n] (start s)).isAtEnd with
    | false => rfl
    | true =>
      rw [Cursor.path?, hend] at h
      cases h
  obtain ⟨turns, hstands⟩ := exists_standsOn populated hmore
  rw [hstands.path?] at h
  exact ⟨turns, hstands, (Option.some.inj h).symm⟩

end Cursor

end SeismicTree

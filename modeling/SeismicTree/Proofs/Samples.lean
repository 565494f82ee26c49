import SeismicTree.Proofs.NumberOrder
import SeismicTree.Proofs.Turns
import SeismicTree.Tree.Sampling

/-!
# A sample is a route

A number of the generator is never above one, and the last threshold of a weighted choice is one, so
a choice is always the position of a weight. A sample therefore goes all the way down to a leaf,
whatever the weights are, and its identifiers are those of an enumerated path. How often a path is
drawn is not claimed.
-/

namespace SeismicTree

theorem Twister.not_one_lt_uniform (g : Twister) : ¬ 1 < g.uniform.1 := by
  simp only [uniform]
  split
  · decide +kernel
  · rename_i h
    exact fun hlt => h (Binary64.le_of_lt hlt)

namespace Discrete

theorem length_sumsFrom {ω : Type} [Add ω] (start : ω) (weights : List ω) :
    (sumsFrom start weights).length = weights.length := by
  induction weights generalizing start with
  | nil => rfl
  | cons w ws ih => rw [sumsFrom, List.length_cons, List.length_cons, ih]

theorem length_partialSums {ω : Type} [Add ω] (weights : List ω) :
    (partialSums weights).length = weights.length := by
  cases weights with
  | nil => rfl
  | cons w ws => rw [partialSums, List.length_cons, List.length_cons, length_sumsFrom]

section Choose
variable {ω : Type} [Add ω] [OfNat ω 0] [OfNat ω 1] [Div ω]

theorem length_thresholds {weights : List ω} (nonempty : weights ≠ []) :
    (thresholds weights).length = weights.length := by
  have hpos := List.length_pos_of_ne_nil nonempty
  simp only [thresholds, List.length_append, List.length_dropLast, length_partialSums,
    List.length_map, List.length_singleton]
  omega

variable [LT ω] [DecidableLT ω]

/-- A number that is not above one chooses one of the weights. -/
theorem choose_lt {u : ω} {weights : List ω} (nonempty : weights ≠ []) (hu : ¬ 1 < u) :
    choose u weights < weights.length := by
  rw [choose]
  split
  · exact List.length_pos_of_ne_nil nonempty
  · have hlast : (1 : ω) ∈ thresholds weights :=
      List.mem_append_right _ (List.mem_singleton_self _)
    have hlt : (thresholds weights).findIdx (fun t => !decide (t < u)) <
        (thresholds weights).length :=
      List.findIdx_lt_length_of_exists ⟨1, hlast, by simpa using hu⟩
    rwa [length_thresholds nonempty] at hlt

end Choose

end Discrete

/-- A sample takes the branch: its position is the one chosen from the weights of the set. -/
def Turn.Drawn {ω : Type} (choose : List ω → Nat) (x : Turn ω) : Prop :=
  (x.index : Nat) = x.set.decision.pick choose (x.set.branches.map (·.weight))

/-- Of a collapsed set a sample takes the first branch, as an enumeration does. -/
theorem Turn.Drawn.explored {ω : Type} {choose : List ω → Nat} {x : Turn ω} (h : x.Drawn choose) :
    x.Explored := by
  intro hcollapsed
  exact h.trans (if_pos hcollapsed)

namespace BranchSet
variable {ω : Type} {s : BranchSet ω} {choose : List ω → Nat}

/-- A choice takes the branch at its position. -/
theorem takeAt_eq_descendBy (choose : List ω → Nat) {bs : List (Branch ω)} (i : Fin bs.length) :
    Branch.takeAt choose bs i = (bs.get i).descendBy choose := by
  induction bs with
  | nil => exact i.elim0
  | cons b bs ih =>
    cases i using Fin.cases with
    | zero => rfl
    | succ i => exact ih i

theorem descendBy_branch (choose : List ω → Nat) (b : Branch ω) :
    b.descendBy choose = b.choice :: descendBelowBy choose b.child := by
  cases b
  rfl

theorem descendBy_turn {x : Turn ω} (h : x.Drawn choose) :
    x.set.descendBy choose = x.branch.choice :: descendBelowBy choose x.branch.child := by
  obtain ⟨⟨d, bs⟩, i⟩ := x
  have hindex : d.pick choose (bs.map (·.weight)) = i := h.symm
  have htake : Branch.takeAt choose bs i = (bs.get i).descendBy choose :=
    takeAt_eq_descendBy choose i
  rw [descendBy, hindex, htake, descendBy_branch]
  rfl

/-- The choices of a sample are those of the turns that it takes. -/
theorem Course.descendBy {turns : List (Turn ω)} (h : s.Course turns)
    (drawn : ∀ x ∈ turns, x.Drawn choose) :
    s.descendBy choose = turns.map (·.branch.choice) := by
  induction turns generalizing s with
  | nil => exact absurd h s.not_course_nil
  | cons x rest ih =>
    obtain ⟨hx, hrest⟩ := List.forall_mem_cons.mp drawn
    obtain ⟨rfl, ⟨last, rfl⟩ | ⟨t, child, below⟩⟩ := course_cons_iff.mp h
    · rw [descendBy_turn hx, last]
      rfl
    · rw [descendBy_turn hx, child, descendBelowBy, ih below hrest, List.map_cons]

/-- Choices of positions take turns that lead down to a leaf. -/
theorem exists_drawn (populated : s.Populated)
    (inside : ∀ weights, weights ≠ [] → choose weights < weights.length) :
    ∃ turns, s.Course turns ∧ ∀ x ∈ turns, x.Drawn choose := by
  induction s using induction_branches with
  | step d bs ih =>
    obtain ⟨hne, hbelow⟩ := populated_mk.mp populated
    have hpick : d.pick choose (bs.map (·.weight)) < bs.length := by
      rw [Decision.pick]
      split
      · exact List.length_pos_of_ne_nil hne
      · simpa using inside (bs.map (·.weight)) (by simpa using hne)
    let x : Turn ω := ⟨mk d bs, ⟨d.pick choose (bs.map (·.weight)), hpick⟩⟩
    have hdrawn : x.Drawn choose := rfl
    cases hchild : x.branch.child with
    | none =>
      exact ⟨[x], course_cons_iff.mpr ⟨rfl, Or.inl ⟨hchild, rfl⟩⟩,
        List.forall_mem_singleton.mpr hdrawn⟩
    | some t =>
      obtain ⟨turns, hcourse, hturns⟩ :=
        ih x.branch x.stage.mem t hchild (hbelow x.branch x.stage.mem t hchild)
      exact ⟨x :: turns, course_cons_iff.mpr ⟨rfl, Or.inr ⟨t, hchild, hcourse⟩⟩,
        List.forall_mem_cons.mpr ⟨hdrawn, hturns⟩⟩

/-- The sample for a seed takes turns down to a leaf. -/
theorem exists_sampled {s : LogicTree} (populated : s.Populated) (seed : UInt32) :
    ∃ turns, s.Course turns ∧
      (∀ x ∈ turns, x.Drawn (Discrete.choose (Twister.ofSeed seed).uniform.1)) ∧
      s.sample seed = turns.map (·.branch.choice) := by
  obtain ⟨turns, hcourse, hdrawn⟩ := exists_drawn populated fun _ nonempty =>
    Discrete.choose_lt nonempty (Twister.ofSeed seed).not_one_lt_uniform
  exact ⟨turns, hcourse, hdrawn, hcourse.descendBy hdrawn⟩

/-- The sample for a seed is a route. -/
theorem sample_route {s : LogicTree} (populated : s.Populated) (seed : UInt32) :
    ∃ route, s.Route route ∧ s.sample seed = route.map (·.branch.choice) := by
  obtain ⟨turns, hcourse, _, hsample⟩ := exists_sampled populated seed
  refine ⟨turns.map Turn.stage, hcourse, ?_⟩
  rw [hsample, List.map_map]
  rfl

/-- The sample for a seed goes down to a leaf, takes the first branch of every collapsed set, and
its identifiers are those of a path that is enumerated. -/
theorem sample_enumerated {s : LogicTree} (populated : s.Populated) (seed : UInt32) :
    ∃ turns, s.Course turns ∧ (∀ x ∈ turns, x.Explored) ∧
      s.sample seed = turns.map (·.branch.choice) ∧
      ∃ p ∈ (Cursor.start s).paths, p = Path.ofChoices (turns.map (·.stage.shown)) ∧
        p.ids = (s.sample seed).map (·.id) := by
  obtain ⟨turns, hcourse, hdrawn, hsample⟩ := exists_sampled populated seed
  have hexplored : ∀ x ∈ turns, x.Explored := fun x hx => (hdrawn x hx).explored
  have hshown : s.ShownAs (turns.map Turn.stage) (Path.ofChoices (turns.map (·.stage.shown))) := by
    refine ⟨hcourse, fun y hy => ?_, by rw [List.map_map]; rfl⟩
    obtain ⟨x, hx, rfl⟩ := List.mem_map.mp hy
    exact Turn.explored_stage (hexplored x hx)
  refine ⟨turns, hcourse, hexplored, hsample, _,
    (Cursor.mem_paths_start populated).mpr ⟨_, hshown⟩, rfl, ?_⟩
  rw [hsample, Path.ofChoices, Path.ids, List.map_map, List.map_map]
  exact List.map_congr_left fun x _ => x.stage.id_shown

end BranchSet

namespace LogicTree

def layered : LogicTree :=
  .mk ⟨.bGRRelative, "slopes", .empty, true⟩
    [.mk ⟨"c1", 0.25, .number 0⟩ (some <|
      .mk ⟨.gmpeModel, "motions", .empty, false⟩
        [.mk ⟨"b1", 0.5, .model "x"⟩ none, .mk ⟨"b2", 0.5, .model "y"⟩ none]),
    .mk ⟨"c2", 0.75, .number 1⟩ none]

/-- The same sets behind two branches, whose identifiers are met again in them. -/
def repeated : LogicTree :=
  .mk ⟨.sourceModel, "models", .empty, false⟩
    [.mk ⟨"b1", 0.5, .model "a.xml"⟩ (some layered), .mk ⟨"b2", 0.5, .model "b.xml"⟩ (some layered)]

theorem populated_repeated : repeated.Populated := by
  unfold BranchSet.Populated
  decide +kernel

theorem sample_enumerated_repeated :
    repeated.Populated ∧ (repeated.sample 7).map (·.id) ∈
      [["b1", "c1", "b1"], ["b1", "c1", "b2"], ["b2", "c1", "b1"], ["b2", "c1", "b2"]] := by
  refine ⟨populated_repeated, ?_⟩
  obtain ⟨_, _, _, _, p, hp, _, hids⟩ := BranchSet.sample_enumerated populated_repeated 7
  rw [Cursor.paths_start populated_repeated] at hp
  rw [← hids]
  exact List.mem_map_of_mem hp

end LogicTree

end SeismicTree

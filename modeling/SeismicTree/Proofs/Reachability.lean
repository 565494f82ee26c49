import SeismicTree.Proofs.Samples
import SeismicTree.Proofs.WeightConservation
import Mathlib.Data.Real.Basic
import Mathlib.Order.CountableDenseLinearOrder

/-!
# Which paths a sample can take

Weights and sums are exact here, and the number of the generator is any number between zero and one.
Every branch of a set has an interval of such numbers, and they are the same numbers at every level.
A sample can therefore take a path exactly if the intervals of its branches overlap two by two, and
there are trees with paths that no sample takes. Nothing is claimed about rounding, or about which
numbers a generator comes to.
-/

namespace SeismicTree

section
variable {K : Type} [Field K]

namespace Discrete

/-- The part of the total weight that lies in front of a position. -/
def shareBefore (weights : List K) (i : Nat) : K := (weights.take i).sum / weights.sum

theorem sumsFrom_eq (start : K) (weights : List K) :
    sumsFrom start weights =
      (List.range weights.length).map fun i => start + (weights.take (i + 1)).sum := by
  induction weights generalizing start with
  | nil => rfl
  | cons w ws ih =>
    rw [sumsFrom, ih, List.length_cons, List.range_succ_eq_map, List.map_cons, List.map_map]
    refine congrArg₂ List.cons (by simp) (List.map_congr_left fun i _ => ?_)
    simp [add_assoc]

theorem partialSums_eq (weights : List K) :
    partialSums weights = (List.range weights.length).map fun i => (weights.take (i + 1)).sum := by
  have hzero : partialSums weights = sumsFrom 0 weights := by
    cases weights with
    | nil => rfl
    | cons w ws => rw [partialSums, sumsFrom, zero_add]
  rw [hzero, sumsFrom_eq]
  exact List.map_congr_left fun i _ => zero_add _

theorem shareBefore_zero (weights : List K) : shareBefore weights 0 = 0 := by
  rw [shareBefore, List.take_zero, List.sum_nil, zero_div]

theorem shareBefore_length {weights : List K} (total : weights.sum ≠ 0) :
    shareBefore weights weights.length = 1 := by
  rw [shareBefore, List.take_length, div_self total]

/-- The threshold of a weight is the part of the total up to it. -/
theorem thresholds_eq {weights : List K} (nonempty : weights ≠ []) (total : weights.sum ≠ 0) :
    thresholds weights = (List.range weights.length).map fun i => shareBefore weights (i + 1) := by
  obtain ⟨n, hn⟩ : ∃ n, weights.length = n + 1 :=
    ⟨weights.length - 1, (Nat.succ_pred_eq_of_pos (List.length_pos_of_ne_nil nonempty)).symm⟩
  have hsums : partialSums (weights.map (· / weights.sum)) =
      (List.range weights.length).map fun i => shareBefore weights (i + 1) := by
    rw [partialSums_eq, List.length_map]
    refine List.map_congr_left fun i _ => ?_
    rw [shareBefore, ← List.map_take]
    simp only [div_eq_mul_inv, List.sum_map_mul_right, List.map_id']
  rw [thresholds, totalWeight_eq_sum, hsums, hn, List.range_succ, List.map_append,
    List.map_singleton, List.dropLast_concat, ← hn, shareBefore_length total]

variable [LinearOrder K] [IsStrictOrderedRing K]

theorem shareBefore_mono {weights : List K} (positive : ∀ w ∈ weights, 0 < w) {i j : Nat}
    (h : i ≤ j) : shareBefore weights i ≤ shareBefore weights j := by
  have hnonneg : ∀ w ∈ weights, 0 ≤ w := fun w hw => (positive w hw).le
  refine div_le_div_of_nonneg_right ?_ (List.sum_nonneg hnonneg)
  exact (List.take_sublist_take_left h).sum_le_sum fun w hw => hnonneg w (List.mem_of_mem_take hw)

/-- A number chooses the weight in whose part of the total it lies. -/
theorem choose_eq_iff {weights : List K} (positive : ∀ w ∈ weights, 0 < w) {i : Nat}
    (inside : i < weights.length) {u : K} (hu : 0 < u) (hu1 : u < 1) :
    choose u weights = i ↔ shareBefore weights i < u ∧ u ≤ shareBefore weights (i + 1) := by
  have hne : weights ≠ [] := List.ne_nil_of_length_pos (by omega)
  have htotal : weights.sum ≠ 0 := (List.sum_pos weights positive hne).ne'
  rw [choose]
  split
  · obtain rfl : i = 0 := by omega
    have hone : weights.length = 0 + 1 := by omega
    have hwhole : shareBefore weights (0 + 1) = 1 := hone ▸ shareBefore_length htotal
    rw [hwhole, shareBefore_zero]
    exact ⟨fun _ => ⟨hu, hu1.le⟩, fun _ => rfl⟩
  · rw [thresholds_eq hne htotal, List.findIdx_eq (by simpa using inside)]
    simp only [List.getElem_map, List.getElem_range, Bool.not_eq_true', decide_eq_false_iff_not,
      not_lt, Bool.not_eq_false', decide_eq_true_eq]
    constructor
    · rintro ⟨hupper, hlower⟩
      refine ⟨?_, hupper⟩
      cases i with
      | zero => rwa [shareBefore_zero]
      | succ i => exact hlower i (Nat.lt_succ_self i)
    · rintro ⟨hlower, hupper⟩
      exact ⟨hupper, fun j hj => (shareBefore_mono positive hj).trans_lt hlower⟩

end Discrete

namespace Turn
variable {x : Turn K}

/-- The lower end of the numbers that take the branch, which is not one of them. -/
def lower (x : Turn K) : K :=
  if x.set.collapsed then 0
  else Discrete.shareBefore (x.set.branches.map (·.weight)) x.index

/-- The upper end of the numbers that take the branch. -/
def upper (x : Turn K) : K :=
  if x.set.collapsed then 1
  else Discrete.shareBefore (x.set.branches.map (·.weight)) (x.index + 1)

variable [LinearOrder K] [IsStrictOrderedRing K]

theorem lower_nonneg (positive : ∀ b ∈ x.set.branches, 0 < b.weight) : 0 ≤ x.lower := by
  rw [lower]
  split
  · exact le_rfl
  · rw [← Discrete.shareBefore_zero (x.set.branches.map (·.weight))]
    exact Discrete.shareBefore_mono (List.forall_mem_map.mpr positive) (Nat.zero_le _)

theorem upper_le_one (positive : ∀ b ∈ x.set.branches, 0 < b.weight) : x.upper ≤ 1 := by
  rw [upper]
  split
  · exact le_rfl
  · have hpos : ∀ w ∈ x.set.branches.map (·.weight), 0 < w := List.forall_mem_map.mpr positive
    have hne : x.set.branches.map (·.weight) ≠ [] :=
      List.map_eq_nil_iff.not.mpr (List.ne_nil_of_length_pos x.index.pos)
    rw [← Discrete.shareBefore_length (List.sum_pos _ hpos hne).ne']
    refine Discrete.shareBefore_mono hpos ?_
    rw [List.length_map]
    exact x.index.isLt

/-- A number takes the branch that it lies at, if the branch is one that is enumerated. -/
theorem drawn_iff (explored : x.Explored) (positive : ∀ b ∈ x.set.branches, 0 < b.weight) {u : K}
    (hu : 0 < u) (hu1 : u < 1) :
    x.Drawn (Discrete.choose u) ↔ x.lower < u ∧ u ≤ x.upper := by
  rw [Drawn, Decision.pick, lower, upper]
  cases hcollapsed : x.set.collapsed with
  | true =>
    have hfirst : x.set.decision.collapsed = true := hcollapsed
    rw [if_pos hfirst, if_pos rfl, if_pos rfl]
    exact ⟨fun _ => ⟨hu, hu1.le⟩, fun _ => explored hcollapsed⟩
  | false =>
    have hplain : ¬ x.set.decision.collapsed = true := Bool.eq_false_iff.mp hcollapsed
    have hinside : (x.index : Nat) < (x.set.branches.map (·.weight)).length := by
      rw [List.length_map]
      exact x.index.isLt
    rw [if_neg hplain, if_neg Bool.false_ne_true, if_neg Bool.false_ne_true, eq_comm]
    exact Discrete.choose_eq_iff (List.forall_mem_map.mpr positive) hinside hu hu1

/-- Turns have a number in common exactly if any two of them have. -/
theorem exists_common_iff {turns : List (Turn K)} (nonempty : turns ≠ [])
    (positive : ∀ x ∈ turns, ∀ b ∈ x.set.branches, 0 < b.weight) :
    (∃ u, 0 < u ∧ u < 1 ∧ ∀ x ∈ turns, x.lower < u ∧ u ≤ x.upper) ↔
      ∀ x ∈ turns, ∀ y ∈ turns, x.lower < y.upper := by
  constructor
  · rintro ⟨u, _, _, h⟩ x hx y hy
    exact (h x hx).1.trans_le (h y hy).2
  · intro h
    obtain ⟨u, hlower, hupper⟩ := Order.exists_between_finsets
      (turns.map lower).toFinset (turns.map upper).toFinset (by simpa using h)
    have hbetween : ∀ x ∈ turns, x.lower < u ∧ u < x.upper := fun x hx =>
      ⟨hlower _ (List.mem_toFinset.mpr (List.mem_map_of_mem hx)),
        hupper _ (List.mem_toFinset.mpr (List.mem_map_of_mem hx))⟩
    obtain ⟨x, hx⟩ := List.exists_mem_of_ne_nil turns nonempty
    obtain ⟨hlow, hhigh⟩ := hbetween x hx
    exact ⟨u, (lower_nonneg (positive x hx)).trans_lt hlow,
      hhigh.trans_le (upper_le_one (positive x hx)),
      fun y hy => ⟨(hbetween y hy).1, (hbetween y hy).2.le⟩⟩

end Turn

namespace Cursor
variable [LinearOrder K] [IsStrictOrderedRing K] {s : BranchSet K}

/-- The turns under a cursor are those of a sample, for some number, exactly if at any two of them
the parts of the total in front of the one branch are less than those up to the other. -/
theorem sampled_iff_overlap (populated : s.Populated)
    (positive : ∀ b ∈ s.occurrences, 0 < b.weight) {n : Nat} {p : Path K}
    (path : (next^[n] (start s)).path? = some p) :
    (∃ turns, (next^[n] (start s)).StandsOn s turns) ∧
      ∀ turns, (next^[n] (start s)).StandsOn s turns →
        p = Path.ofChoices (turns.map (·.stage.shown)) ∧
        ((∃ u, 0 < u ∧ u < 1 ∧ (∀ x ∈ turns, x.Drawn (Discrete.choose u)) ∧
            s.descendBy (Discrete.choose u) = turns.map (·.branch.choice)) ↔
          ∀ x ∈ turns, ∀ y ∈ turns, x.lower < y.upper) := by
  constructor
  · obtain ⟨turns, hstands, _⟩ := exists_standsOn_path populated path
    exact ⟨turns, hstands⟩
  · intro turns hstands
    have hweights : ∀ x ∈ turns, ∀ b ∈ x.set.branches, 0 < b.weight := by
      intro x hx b hb
      have hset := hstands.course.sets x.stage (List.mem_map_of_mem hx)
      exact positive b (List.mem_flatMap.mpr ⟨x.set, hset, hb⟩)
    have hne : turns ≠ [] := by
      rintro rfl
      exact s.not_course_nil hstands.course
    refine ⟨Option.some.inj (path.symm.trans hstands.path?), ?_⟩
    rw [← Turn.exists_common_iff hne hweights]
    refine exists_congr fun u => and_congr_right fun hu => and_congr_right fun hu1 => ?_
    have hdrawn : ∀ x ∈ turns, x.Drawn (Discrete.choose u) ↔ x.lower < u ∧ u ≤ x.upper :=
      fun x hx => Turn.drawn_iff (hstands.explored x hx) (hweights x hx) hu hu1
    constructor
    · rintro ⟨h, _⟩ x hx
      exact (hdrawn x hx).mp (h x hx)
    · intro h
      have htaken : ∀ x ∈ turns, x.Drawn (Discrete.choose u) :=
        fun x hx => (hdrawn x hx).mpr (h x hx)
      exact ⟨htaken, hstands.course.descendBy htaken⟩

end Cursor

end

namespace Cursor

section TwoLevels
variable {K : Type} [Field K]

def evenSlopes (K : Type) [Field K] : BranchSet K :=
  .mk ⟨.bGRRelative, "slopes", .empty, false⟩
    [.mk ⟨"c1", 1 / 2, .number 0⟩ none, .mk ⟨"c2", 1 / 2, .number 1⟩ none]

def twoLevels (w : K) : BranchSet K :=
  .mk ⟨.sourceModel, "models", .empty, false⟩
    [.mk ⟨"b1", w, .model "a.xml"⟩ (some (evenSlopes K)),
      .mk ⟨"b2", 1 - w, .model "b.xml"⟩ none]

def secondSlope (w : K) : List (Turn K) :=
  [⟨twoLevels w, ⟨0, Nat.zero_lt_two⟩⟩, ⟨evenSlopes K, ⟨1, Nat.one_lt_two⟩⟩]

theorem populated_twoLevels (w : K) : (twoLevels w).Populated := by
  simp [BranchSet.Populated, twoLevels, evenSlopes, BranchSet.sets, Branch.sets, Branch.setsOfAll,
    BranchSet.setsBelow]

theorem standsOn_secondSlope (w : K) :
    (next^[1] (start (twoLevels w))).StandsOn (twoLevels w) (secondSlope w) where
  course := BranchSet.course_cons_iff.mpr ⟨rfl, Or.inr ⟨_, rfl,
    BranchSet.course_cons_iff.mpr ⟨rfl, Or.inl ⟨rfl, rfl⟩⟩⟩⟩
  levels := rfl
  explored := by
    intro x hx hcollapsed
    rcases List.mem_pair.mp hx with rfl | rfl
    · cases hcollapsed
    · cases hcollapsed

variable [LinearOrder K] [IsStrictOrderedRing K]

theorem positive_twoLevels {w : K} (hw : 0 < w) (hw1 : w < 1) :
    ∀ b ∈ (twoLevels w).occurrences, 0 < b.weight := by
  simp [twoLevels, evenSlopes, BranchSet.occurrences, BranchSet.sets, Branch.sets,
    Branch.setsOfAll, BranchSet.setsBelow, Branch.weight, hw, hw1]

theorem overlap_secondSlope {w : K} :
    (∀ x ∈ secondSlope w, ∀ y ∈ secondSlope w, x.lower < y.upper) ↔ 1 / 2 < w := by
  have hends : (secondSlope w).map (fun x => (x.lower, x.upper)) = [(0, w), (1 / 2, 1)] := by
    norm_num [secondSlope, twoLevels, evenSlopes, Turn.lower, Turn.upper, Discrete.shareBefore,
      BranchSet.collapsed, Branch.weight]
  have hpairs : (∀ x ∈ secondSlope w, ∀ y ∈ secondSlope w, x.lower < y.upper) ↔
      ∀ a ∈ (secondSlope w).map (fun x => (x.lower, x.upper)),
        ∀ b ∈ (secondSlope w).map (fun x => (x.lower, x.upper)), a.1 < b.2 := by
    simp only [List.forall_mem_map]
  rw [hpairs, hends]
  constructor
  · intro h
    exact h (1 / 2, 1) (by simp) (0, w) (by simp)
  · intro h a ha b hb
    have hhalf : (0 : K) < 1 / 2 := by norm_num
    have hone : (1 / 2 : K) < 1 := by norm_num
    rcases List.mem_pair.mp ha with rfl | rfl <;> rcases List.mem_pair.mp hb with rfl | rfl
    · exact hhalf.trans h
    · exact hhalf.trans hone
    · exact h
    · exact hone

end TwoLevels

/-- A sample comes to the second branch of the fair set if the weight in front of it is three
quarters, but not if it is one half. -/
theorem sampled_iff_overlap_secondSlope :
    (∃ u : ℚ, 0 < u ∧ u < 1 ∧ (∀ x ∈ secondSlope (3 / 4 : ℚ), x.Drawn (Discrete.choose u)) ∧
        (twoLevels (3 / 4)).descendBy (Discrete.choose u) =
          (secondSlope (3 / 4 : ℚ)).map (·.branch.choice)) ∧
      ¬ ∃ u : ℚ, 0 < u ∧ u < 1 ∧ (∀ x ∈ secondSlope (1 / 2 : ℚ), x.Drawn (Discrete.choose u)) ∧
        (twoLevels (1 / 2)).descendBy (Discrete.choose u) =
          (secondSlope (1 / 2 : ℚ)).map (·.branch.choice) := by
  have hreach : ∀ w : ℚ, 0 < w → w < 1 →
      ((∃ u, 0 < u ∧ u < 1 ∧ (∀ x ∈ secondSlope w, x.Drawn (Discrete.choose u)) ∧
        (twoLevels w).descendBy (Discrete.choose u) = (secondSlope w).map (·.branch.choice)) ↔
          1 / 2 < w) := by
    intro w hw hw1
    have hstands := standsOn_secondSlope w
    have hoverlap := sampled_iff_overlap (populated_twoLevels w) (positive_twoLevels hw hw1)
      hstands.path?
    exact (hoverlap.2 _ hstands).2.trans overlap_secondSlope
  constructor
  · exact (hreach (3 / 4) (by norm_num) (by norm_num)).mpr (by norm_num)
  · exact fun h => absurd ((hreach (1 / 2) (by norm_num) (by norm_num)).mp h) (by norm_num)

/-- A path that no sample takes. -/
theorem not_every_path_sampled :
    ¬ ∀ s : BranchSet ℝ, s.Populated → (∀ b ∈ s.occurrences, 0 < b.weight) →
      ∀ p ∈ (start s).paths, ∃ u, 0 < u ∧ u < 1 ∧
        (s.descendBy (Discrete.choose u)).map (·.id) = p.ids := by
  intro h
  have hpath : Path.ofChoices ((secondSlope (1 / 2 : ℝ)).map (·.stage.shown)) ∈
      (start (twoLevels (1 / 2 : ℝ))).paths := by
    rw [paths_start (populated_twoLevels _)]
    exact List.mem_cons_of_mem _ List.mem_cons_self
  obtain ⟨u, _, _, hids⟩ := h (twoLevels (1 / 2)) (populated_twoLevels _)
    (positive_twoLevels (by norm_num) (by norm_num)) _ hpath
  have hweights : [(1 / 2 : ℝ), 1 - 1 / 2] = [1 / 2, 1 / 2] := by norm_num
  have hroot : (twoLevels (1 / 2 : ℝ)).descendBy (Discrete.choose u) = Branch.takeAt
      (Discrete.choose u) (twoLevels (1 / 2)).branches (Discrete.choose u [1 / 2, 1 / 2]) :=
    congrArg (fun weights => Branch.takeAt _ _ (Discrete.choose u weights)) hweights
  have hslope : (evenSlopes ℝ).descendBy (Discrete.choose u) = Branch.takeAt
      (Discrete.choose u) (evenSlopes ℝ).branches (Discrete.choose u [1 / 2, 1 / 2]) := rfl
  rw [hroot] at hids
  change _ = ["b1", "c2"] at hids
  rcases hposition : Discrete.choose u [(1 / 2 : ℝ), 1 / 2] with _ | _ | i
  · rw [hposition] at hids hslope
    change "b1" :: ((evenSlopes ℝ).descendBy (Discrete.choose u)).map (·.id) = _ at hids
    rw [hslope] at hids
    change ["b1", "c1"] = ["b1", "c2"] at hids
    exact absurd hids (by decide)
  · rw [hposition] at hids
    change ["b2"] = ["b1", "c2"] at hids
    exact absurd hids (by decide)
  · rw [hposition] at hids
    change [] = ["b1", "c2"] at hids
    cases hids

end Cursor

end SeismicTree

import SeismicTree.Number.Closeness
import SeismicTree.Proofs.Routes
import Mathlib.Algebra.BigOperators.Ring.List
import Mathlib.Algebra.Order.BigOperators.Group.List
import Mathlib.Algebra.Order.Ring.Rat
import Mathlib.Tactic.GCongr
import Mathlib.Tactic.Linarith
import Mathlib.Tactic.Ring

/-!
# The weights of all paths

Weights are exact here, and so are their sums and products. The weights of the paths of a tree sum
up to one if those of every set do, and an error in the sums grows at most with the number of levels
on a path. A collapsed set is taken with a weight of one, so its own weights play no part, and
neither do the sets behind its other branches. Nothing is claimed about rounding.
-/

namespace SeismicTree

theorem totalWeight_eq_sum {K : Type} [AddMonoid K] (weights : List K) :
    totalWeight weights = weights.sum :=
  List.sum_eq_foldl.symm

theorem foldl_weight (w : ℚ) (choices : List (Choice ℚ)) :
    choices.foldl (fun w c => w * c.weight) w = w * pathWeight choices := by
  induction choices generalizing w with
  | nil => exact (mul_one w).symm
  | cons c choices ih =>
    have hcons : pathWeight (c :: choices) = c.weight * pathWeight choices := by
      rw [pathWeight, List.foldl_cons, ih, one_mul]
    rw [List.foldl_cons, ih, hcons, mul_assoc]

theorem pathWeight_cons (c : Choice ℚ) (choices : List (Choice ℚ)) :
    pathWeight (c :: choices) = c.weight * pathWeight choices := by
  rw [pathWeight, List.foldl_cons, foldl_weight, one_mul]

namespace BranchSet

/-- The sum of the weights of the walks of a set. -/
def mass (s : BranchSet ℚ) : ℚ := (s.walks.map pathWeight).sum

def massBelow (s : Option (BranchSet ℚ)) : ℚ := ((walksBelow s).map pathWeight).sum

theorem massBelow_none : massBelow none = 1 := by
  simp [massBelow, walksBelow, pathWeight]

theorem massBelow_some (t : BranchSet ℚ) : massBelow (some t) = t.mass := rfl

theorem sum_walks_branch (d : Decision) (b : Branch ℚ) :
    ((b.walks d).map pathWeight).sum = (d.shown b.choice).weight * massBelow b.child := by
  have hcons : (pathWeight ∘ fun walk => d.shown b.choice :: walk) =
      fun walk => (d.shown b.choice).weight * pathWeight walk :=
    funext fun walk => pathWeight_cons _ walk
  rw [Branch.walks_eq, List.map_map, hcons, List.sum_map_mul_left, massBelow]

/-- Every explored branch counts with the weight that is shown and what is behind it. -/
theorem mass_mk (d : Decision) (bs : List (Branch ℚ)) :
    (mk d bs).mass =
      ((d.explored bs).map fun b => (d.shown b.choice).weight * massBelow b.child).sum := by
  rw [mass, walks_mk, List.map_flatMap, List.flatMap_def, List.sum_flatten, List.map_map]
  exact congrArg List.sum (List.map_congr_left fun b _ => sum_walks_branch d b)

theorem mass_plain {d : Decision} {bs : List (Branch ℚ)} (plain : d.collapsed = false) :
    (mk d bs).mass = (bs.map fun b => b.weight * massBelow b.child).sum := by
  simp [mass_mk, Decision.explored, Decision.shown, plain, Branch.weight]

theorem mass_collapsed {d : Decision} {b : Branch ℚ} {bs : List (Branch ℚ)}
    (collapsed : d.collapsed = true) : (mk d (b :: bs)).mass = massBelow b.child := by
  simp [mass_mk, Decision.explored, Decision.shown, collapsed]

/-- A weighted sum of numbers between two bounds is between the bounds times the sum of the
weights. -/
theorem sum_weighted_mem {α : Type} {items : List α} {w m : α → ℚ} {low high : ℚ}
    (weights : ∀ a ∈ items, 0 ≤ w a) (bounds : ∀ a ∈ items, low ≤ m a ∧ m a ≤ high) :
    (items.map w).sum * low ≤ (items.map fun a => w a * m a).sum ∧
      (items.map fun a => w a * m a).sum ≤ (items.map w).sum * high := by
  rw [← List.sum_map_mul_right, ← List.sum_map_mul_right]
  constructor
  · exact List.sum_le_sum fun a ha => mul_le_mul_of_nonneg_left (bounds a ha).1 (weights a ha)
  · exact List.sum_le_sum fun a ha => mul_le_mul_of_nonneg_left (bounds a ha).2 (weights a ha)

/-- A set of which one branch is taken at a time has no negative weights, and their sum differs from
one by at most the tolerance. -/
def Balanced (e : ℚ) (s : BranchSet ℚ) : Prop :=
  s.collapsed = false → (∀ b ∈ s.branches, 0 ≤ b.weight) ∧
    1 - e ≤ totalWeight (s.branches.map (·.weight)) ∧
    totalWeight (s.branches.map (·.weight)) ≤ 1 + e

/-- The number of levels of a route at which one branch is taken at a time. -/
def plainLevels {ω : Type} (route : List (Stage ω)) : Nat :=
  route.countP fun x => !x.set.collapsed

section Depth
variable {ω : Type}

theorem plainLevels_cons_plain {x : Stage ω} {route : List (Stage ω)}
    (plain : x.set.collapsed = false) : plainLevels (x :: route) = plainLevels route + 1 := by
  simp [plainLevels, plain]

theorem plainLevels_cons_collapsed {x : Stage ω} {route : List (Stage ω)}
    (collapsed : x.set.collapsed = true) : plainLevels (x :: route) = plainLevels route := by
  simp [plainLevels, collapsed]

/-- A set has at most one plain level in front of those behind its branches. -/
theorem Route.plainLevels_le {d : Decision} {bs : List (Branch ω)} {route : List (Stage ω)}
    {n : Nat} (h : (mk d bs).Route route)
    (below : ∀ b ∈ bs, ∀ t, b.child = some t → ∀ rest, t.Route rest → plainLevels rest ≤ n) :
    plainLevels route ≤ n + if d.collapsed then 0 else 1 := by
  have hfirst : ∀ x : Stage ω, x.set = mk d bs → ∀ rest, plainLevels rest ≤ n →
      plainLevels (x :: rest) ≤ n + if d.collapsed then 0 else 1 := by
    intro x hx rest hrest
    cases hcollapsed : d.collapsed with
    | true => rwa [plainLevels_cons_collapsed (by rw [hx]; exact hcollapsed)]
    | false =>
      rw [plainLevels_cons_plain (by rw [hx]; exact hcollapsed)]
      exact Nat.succ_le_succ hrest
  cases h with
  | leaf mem last => exact hfirst _ rfl [] (Nat.zero_le n)
  | step mem child under => exact hfirst _ rfl _ (below _ mem _ child _ under)

end Depth

/-- One level: a balanced set moves the bounds of what is behind its branches by its tolerance. -/
theorem mass_mem_of_plain {d : Decision} {bs : List (Branch ℚ)} {e low high : ℚ}
    (plain : d.collapsed = false) (balanced : (mk d bs).Balanced e) (hlow : 0 ≤ low)
    (hhigh : 0 ≤ high)
    (bounds : ∀ b ∈ bs, low ≤ massBelow b.child ∧ massBelow b.child ≤ high) :
    (1 - e) * low ≤ (mk d bs).mass ∧ (mk d bs).mass ≤ (1 + e) * high := by
  obtain ⟨hweights, hleast, hmost⟩ := balanced plain
  rw [totalWeight_eq_sum, branches_mk] at hleast hmost
  obtain ⟨hbelow, habove⟩ := sum_weighted_mem (w := fun b => b.weight) hweights bounds
  rw [mass_plain plain]
  constructor
  · exact (mul_le_mul_of_nonneg_right hleast hlow).trans hbelow
  · exact habove.trans (mul_le_mul_of_nonneg_right hmost hhigh)

/-- All levels: the bounds are powers of those of one set. -/
theorem mass_mem {s : BranchSet ℚ} {e : ℚ} {n : Nat} (populated : s.Populated) (he : 0 ≤ e)
    (he1 : e < 1) (balanced : ∀ t ∈ s.sets, t.Balanced e)
    (depth : ∀ route, s.Route route → (∀ x ∈ route, x.Explored) → plainLevels route ≤ n) :
    (1 - e) ^ n ≤ s.mass ∧ s.mass ≤ (1 + e) ^ n := by
  have hlow : 0 ≤ 1 - e := by linarith
  have hhigh : 1 ≤ 1 + e := by linarith
  induction s using induction_branches generalizing n with
  | step d bs ih =>
    obtain ⟨hne, hpopulated⟩ := populated_mk.mp populated
    obtain ⟨hhere, hbalanced⟩ := forall_sets_mk.mp balanced
    -- What is behind a branch, if the explored routes there have at most `k` plain levels.
    have hbelow : ∀ k, ∀ b ∈ bs,
        (∀ t, b.child = some t → ∀ route, t.Route route → (∀ x ∈ route, x.Explored) →
          plainLevels route ≤ k) →
        (1 - e) ^ k ≤ massBelow b.child ∧ massBelow b.child ≤ (1 + e) ^ k := by
      intro k b hb hdepth
      cases hchild : b.child with
      | none =>
        rw [massBelow_none]
        exact ⟨pow_le_one₀ hlow (by linarith), one_le_pow₀ hhigh⟩
      | some t =>
        rw [massBelow_some]
        exact ih b hb t hchild (hpopulated b hb t hchild) (hbalanced b hb t hchild)
          (hdepth t hchild)
    cases hcollapsed : d.collapsed with
    | true =>
      obtain ⟨b, rest, rfl⟩ := List.exists_cons_of_ne_nil hne
      rw [mass_collapsed hcollapsed]
      refine hbelow n b List.mem_cons_self fun t hchild route hroute hexplored => ?_
      have hlonger := depth _ (.step List.mem_cons_self hchild hroute)
        (List.forall_mem_cons.mpr ⟨Stage.explored_first, hexplored⟩)
      rwa [plainLevels_cons_collapsed (by exact hcollapsed)] at hlonger
    | false =>
      -- Every route takes a branch of this set, so there is one plain level at least.
      obtain ⟨k, rfl⟩ : ∃ k, n = k + 1 := by
        obtain ⟨route, hroute, hexplored⟩ := exists_explored populated
        have hlong := depth route hroute hexplored
        obtain ⟨x, rest, rfl, hx⟩ := hroute.exists_cons
        rw [plainLevels_cons_plain (by rw [hx]; exact hcollapsed)] at hlong
        exact ⟨n - 1, by omega⟩
      rw [pow_succ', pow_succ']
      refine mass_mem_of_plain hcollapsed hhere (pow_nonneg hlow k) (by positivity)
        fun b hb => hbelow k b hb fun t hchild route hroute hexplored => ?_
      have hlonger := depth _ (.step hb hchild hroute)
        (List.forall_mem_cons.mpr ⟨Stage.explored_of_plain hcollapsed, hexplored⟩)
      rw [plainLevels_cons_plain (by exact hcollapsed)] at hlonger
      omega

/-- Without an error in any sum there is none in the whole, also with negative weights. -/
theorem mass_eq_one {s : BranchSet ℚ} (populated : s.Populated)
    (exact : ∀ t ∈ s.sets, t.collapsed = false →
      totalWeight (t.branches.map (·.weight)) = 1) : s.mass = 1 := by
  induction s using induction_branches with
  | step d bs ih =>
    obtain ⟨hne, hpopulated⟩ := populated_mk.mp populated
    obtain ⟨hhere, hexact⟩ := forall_sets_mk.mp exact
    have hbelow : ∀ b ∈ bs, massBelow b.child = 1 := by
      intro b hb
      cases hchild : b.child with
      | none => exact massBelow_none
      | some t =>
        rw [massBelow_some]
        exact ih b hb t hchild (hpopulated b hb t hchild) (hexact b hb t hchild)
    cases hcollapsed : d.collapsed with
    | true =>
      obtain ⟨b, rest, rfl⟩ := List.exists_cons_of_ne_nil hne
      rw [mass_collapsed hcollapsed]
      exact hbelow b List.mem_cons_self
    | false =>
      calc (mk d bs).mass
          = (bs.map fun b => b.weight * massBelow b.child).sum := mass_plain hcollapsed
        _ = (bs.map (·.weight)).sum := by
          refine congrArg List.sum (List.map_congr_left fun b hb => ?_)
          rw [hbelow b hb, mul_one]
        _ = 1 := by rw [← totalWeight_eq_sum]; exact hhere hcollapsed

end BranchSet

namespace Cursor

theorem totalWeight_paths {s : BranchSet ℚ} (populated : s.Populated) :
    totalWeight ((start s).paths.map (·.weight)) = s.mass := by
  rw [totalWeight_eq_sum, paths_start populated, BranchSet.paths, List.map_map, BranchSet.mass]
  rfl

/-- The weights of the paths of an enumeration sum up to one within the tolerance of the sets, for
each level of a path at which one branch is taken at a time, and to one if the sets have no
tolerance. -/
theorem weights_conserved {s : BranchSet ℚ} (populated : s.Populated) :
    (∀ (e : ℚ) (n : Nat), 0 ≤ e → e < 1 → (∀ t ∈ s.sets, t.Balanced e) →
      (∀ p ∈ (start s).paths, ∀ route, s.ShownAs route p → BranchSet.plainLevels route ≤ n) →
        (1 - e) ^ n ≤ totalWeight ((start s).paths.map (·.weight)) ∧
          totalWeight ((start s).paths.map (·.weight)) ≤ (1 + e) ^ n) ∧
      ((∀ t ∈ s.sets, t.collapsed = false → totalWeight (t.branches.map (·.weight)) = 1) →
        totalWeight ((start s).paths.map (·.weight)) = 1) := by
  rw [totalWeight_paths populated]
  constructor
  · intro e n he he1 balanced depth
    refine BranchSet.mass_mem populated he he1 balanced fun route hroute hexplored => ?_
    have hshown : s.ShownAs route (Path.ofChoices (route.map Stage.shown)) :=
      ⟨hroute, hexplored, rfl⟩
    exact depth _ ((mem_paths_start populated).mpr ⟨route, hshown⟩) route hshown
  · exact BranchSet.mass_eq_one populated

def motions : BranchSet ℚ :=
  .mk ⟨.gmpeModel, "motions", .empty, false⟩
    [.mk ⟨"d1", 1 / 4, .model "x"⟩ none, .mk ⟨"d2", 3 / 4, .model "y"⟩ none]

/-- A collapsed set with a plain one behind it, and with weights that sum up to nothing useful. -/
def slopes : BranchSet ℚ :=
  .mk ⟨.bGRRelative, "slopes", .empty, true⟩
    [.mk ⟨"c1", 5, .number 0⟩ (some motions), .mk ⟨"c2", -7, .number 1⟩ none]

def sandwich (w : ℚ) : BranchSet ℚ :=
  .mk ⟨.sourceModel, "models", .empty, false⟩
    [.mk ⟨"b1", 1 / 2, .model "a.xml"⟩ (some slopes), .mk ⟨"b2", w, .model "b.xml"⟩ none]

theorem mem_sets_sandwich {w : ℚ} {t : BranchSet ℚ} (h : t ∈ (sandwich w).sets) :
    t = sandwich w ∨ t = slopes ∨ t = motions := by
  simpa [sandwich, slopes, motions, BranchSet.sets, Branch.sets, Branch.setsOfAll,
    BranchSet.setsBelow] using h

theorem populated_sandwich (w : ℚ) : (sandwich w).Populated := by
  intro t ht
  rcases mem_sets_sandwich ht with rfl | rfl | rfl
  · exact List.cons_ne_nil _ _
  · exact List.cons_ne_nil _ _
  · exact List.cons_ne_nil _ _

/-- No route of the tree has more than two plain levels. -/
theorem plainLevels_sandwich {w : ℚ} {route : List (Stage ℚ)} (h : (sandwich w).Route route) :
    BranchSet.plainLevels route ≤ 2 := by
  have hmotions : ∀ rest, motions.Route rest → BranchSet.plainLevels rest ≤ 1 :=
    fun rest hrest => hrest.plainLevels_le (n := 0) (by simp)
  have hslopes : ∀ rest, slopes.Route rest → BranchSet.plainLevels rest ≤ 1 :=
    fun rest hrest => hrest.plainLevels_le (n := 1) (by simpa using hmotions)
  exact h.plainLevels_le (n := 1) (by simpa using hslopes)

theorem weights_conserved_sandwich :
    totalWeight ((start (sandwich (1 / 2))).paths.map (·.weight)) = 1 ∧
      (1 - 1 / 10) ^ 2 ≤ totalWeight ((start (sandwich (2 / 5))).paths.map (·.weight)) ∧
      totalWeight ((start (sandwich (2 / 5))).paths.map (·.weight)) ≤ (1 + 1 / 10) ^ 2 := by
  constructor
  · refine (weights_conserved (populated_sandwich _)).2 fun t ht plain => ?_
    rcases mem_sets_sandwich ht with rfl | rfl | rfl
    · norm_num [sandwich, totalWeight, Branch.weight]
    · cases plain
    · norm_num [motions, totalWeight, Branch.weight]
  · refine (weights_conserved (populated_sandwich _)).1 (1 / 10) 2 (by norm_num) (by norm_num)
      (fun t ht plain => ?_) fun p _ route shown => plainLevels_sandwich shown.taken
    rcases mem_sets_sandwich ht with rfl | rfl | rfl
    · norm_num [sandwich, totalWeight, Branch.weight]
    · cases plain
    · norm_num [motions, totalWeight, Branch.weight]

end Cursor

end SeismicTree

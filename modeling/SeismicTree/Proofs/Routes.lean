import SeismicTree.Tree.Selection
import SeismicTree.Proofs.Enumeration
import SeismicTree.Proofs.Results
import SeismicTree.Proofs.TreeLeaves

/-!
# Routes

A route goes from a set down to a leaf and keeps, for every level, the set and the branch that is
taken in it. What other ways through a tree leave out can be said of routes: the walks of an
enumeration are what the explored routes show, and the identifiers on a route select the very sets
and values that it went through. The last needs the branches of each set to be told apart by their
identifiers; the same identifier may stand in any number of sets.
-/

namespace SeismicTree

variable {ω : Type}

structure Stage (ω : Type) where
  set : BranchSet ω
  branch : Branch ω
  mem : branch ∈ set.branches

namespace Stage

def shown [OfNat ω 1] (x : Stage ω) : Choice ω := x.set.decision.shown x.branch.choice

def selection (x : Stage ω) : Selection ω := ⟨x.set, x.branch.value⟩

/-- An enumeration comes to the branch: of a collapsed set it takes the first one alone. -/
def Explored (x : Stage ω) : Prop := x.branch ∈ x.set.decision.explored x.set.branches

@[simp] theorem id_shown [OfNat ω 1] (x : Stage ω) : x.shown.id = x.branch.id := by
  unfold shown Decision.shown
  split <;> rfl

@[simp] theorem value_shown [OfNat ω 1] (x : Stage ω) : x.shown.value = x.branch.value := by
  unfold shown Decision.shown
  split <;> rfl

theorem explored_of_plain {s : BranchSet ω} {b : Branch ω} {mem : b ∈ s.branches}
    (plain : s.collapsed = false) : (⟨s, b, mem⟩ : Stage ω).Explored := by
  have hplain : s.decision.collapsed = false := plain
  simpa [Explored, Decision.explored, hplain] using mem

theorem explored_first {d : Decision} {b : Branch ω} {bs : List (Branch ω)}
    {mem : b ∈ (BranchSet.mk d (b :: bs)).branches} :
    (⟨.mk d (b :: bs), b, mem⟩ : Stage ω).Explored := by
  rw [Explored, BranchSet.decision_mk, BranchSet.branches_mk, Decision.explored_cons]
  exact List.mem_cons_self

end Stage

theorem Decision.mem_of_mem_explored {α : Type} {d : Decision} {items : List α} {a : α}
    (h : a ∈ d.explored items) : a ∈ items := by
  unfold Decision.explored at h
  split at h
  · exact List.mem_of_mem_take h
  · exact h

namespace BranchSet

/-- The stages from a set down to a leaf. -/
inductive Route : BranchSet ω → List (Stage ω) → Prop where
  | leaf {s : BranchSet ω} {b : Branch ω} (mem : b ∈ s.branches) (last : b.child = none) :
      Route s [⟨s, b, mem⟩]
  | step {s t : BranchSet ω} {b : Branch ω} {route : List (Stage ω)} (mem : b ∈ s.branches)
      (child : b.child = some t) (below : Route t route) : Route s (⟨s, b, mem⟩ :: route)

variable {s t : BranchSet ω} {route : List (Stage ω)}

theorem sets_of_child {b : Branch ω} (mem : b ∈ s.branches) (child : b.child = some t) :
    t.sets ⊆ s.sets := by
  cases s with
  | mk d bs => exact fun u hu => mem_sets_mk.mpr (Or.inr ⟨b, mem, t, child, hu⟩)

theorem Route.sets (h : s.Route route) : ∀ x ∈ route, x.set ∈ s.sets := by
  induction h with
  | leaf mem last =>
    intro x hx
    cases List.mem_singleton.mp hx
    exact mem_sets_self _
  | step mem child below ih =>
    intro x hx
    rcases List.mem_cons.mp hx with rfl | hx
    · exact mem_sets_self _
    · exact sets_of_child mem child (ih x hx)

/-- A route starts in its set. -/
theorem Route.exists_cons (h : s.Route route) : ∃ x rest, route = x :: rest ∧ x.set = s := by
  cases h with
  | leaf mem last => exact ⟨_, _, rfl, rfl⟩
  | step mem child below => exact ⟨_, _, rfl, rfl⟩

theorem walks_eq [OfNat ω 1] (s : BranchSet ω) :
    s.walks = (s.decision.explored s.branches).flatMap (·.walks s.decision) := by
  cases s with
  | mk d bs => exact walks_mk d bs

/-- The walks of a set are what its explored routes show. -/
theorem mem_walks_iff [OfNat ω 1] {walk : List (Choice ω)} :
    walk ∈ s.walks ↔
      ∃ route, s.Route route ∧ (∀ x ∈ route, x.Explored) ∧ route.map Stage.shown = walk := by
  constructor
  · intro h
    induction s using induction_branches generalizing walk with
    | step d bs ih =>
      rw [walks_mk, List.mem_flatMap] at h
      obtain ⟨b, hb, h⟩ := h
      have hmem : b ∈ (mk d bs).branches := Decision.mem_of_mem_explored hb
      rw [Branch.walks_eq] at h
      obtain ⟨rest, hrest, rfl⟩ := List.mem_map.mp h
      cases hchild : b.child with
      | none =>
        rw [hchild] at hrest
        cases List.mem_singleton.mp hrest
        refine ⟨_, .leaf hmem hchild, fun x hx => ?_, rfl⟩
        cases List.mem_singleton.mp hx
        exact hb
      | some t =>
        rw [hchild] at hrest
        obtain ⟨route, hroute, hexplored, rfl⟩ := ih b hmem t hchild hrest
        exact ⟨_, .step hmem hchild hroute, List.forall_mem_cons.mpr ⟨hb, hexplored⟩, rfl⟩
  · rintro ⟨route, hroute, hexplored, rfl⟩
    induction hroute with
    | @leaf s b mem last =>
      rw [walks_eq, List.mem_flatMap]
      refine ⟨b, hexplored _ List.mem_cons_self, ?_⟩
      rw [Branch.walks_eq, last]
      exact List.mem_singleton_self _
    | @step s t b route mem child below ih =>
      obtain ⟨hb, hbelow⟩ := List.forall_mem_cons.mp hexplored
      rw [walks_eq, List.mem_flatMap]
      refine ⟨b, hb, ?_⟩
      rw [Branch.walks_eq, child]
      exact List.mem_map_of_mem (ih hbelow)

/-- An explored route and the path that shows it. -/
structure ShownAs [Mul ω] [OfNat ω 1] (s : BranchSet ω) (route : List (Stage ω)) (p : Path ω) :
    Prop where
  taken : s.Route route
  explored : ∀ x ∈ route, x.Explored
  path : p = Path.ofChoices (route.map Stage.shown)

/-- A path has the identifiers of the route that it shows. -/
theorem ShownAs.ids [Mul ω] [OfNat ω 1] {p : Path ω} (h : s.ShownAs route p) :
    p.ids = route.map (·.branch.id) := by
  rw [h.path, Path.ofChoices, Path.ids, List.map_map]
  exact List.map_congr_left fun x _ => x.id_shown

/-- A set without empty sets behind it has a route that an enumeration comes to. -/
theorem exists_explored (populated : s.Populated) :
    ∃ route, s.Route route ∧ ∀ x ∈ route, x.Explored := by
  induction s using induction_branches with
  | step d bs ih =>
    obtain ⟨hne, hbelow⟩ := populated_mk.mp populated
    obtain ⟨b, rest, rfl⟩ := List.exists_cons_of_ne_nil hne
    have hb : b ∈ (mk d (b :: rest)).branches := List.mem_cons_self
    cases hchild : b.child with
    | none => exact ⟨_, .leaf hb hchild, List.forall_mem_singleton.mpr Stage.explored_first⟩
    | some t =>
      obtain ⟨route, hroute, hrest⟩ :=
        ih b List.mem_cons_self t hchild (hbelow b List.mem_cons_self t hchild)
      exact ⟨_, .step hb hchild hroute, List.forall_mem_cons.mpr ⟨Stage.explored_first, hrest⟩⟩

theorem get_of_mem {b : Branch ω} (distinct : s.Distinct) (mem : b ∈ s.branches) :
    s.get b.id = .ok b := by
  rw [get, find?_of_mem (distinct s (mem_sets_self s)) mem]

/-- As many identifiers as one likes, from those on a route and what is behind them, select the sets
and values of as many stages. What is behind the leaf is left over. -/
theorem Route.follow_take (distinct : s.Distinct) (h : s.Route route) (more : List String)
    (k : Nat) :
    s.follow ((route.map (·.branch.id) ++ more).take k) =
      .ok ((route.map Stage.selection).take k, more.take (k - route.length)) := by
  induction h generalizing k with
  | leaf mem last =>
    cases k with
    | zero => rfl
    | succ k =>
      simp only [List.map_cons, List.map_nil, List.singleton_append, List.take_succ_cons,
        List.take_nil, BranchSet.follow, get_of_mem distinct mem, ok_bind, last]
      rfl
  | step mem child below ih =>
    cases k with
    | zero => simp [BranchSet.follow]
    | succ k =>
      have hbelow := ih (fun u hu => distinct u (sets_of_child mem child hu)) k
      simp only [List.map_cons, List.cons_append, List.take_succ_cons, BranchSet.follow,
        get_of_mem distinct mem, ok_bind, child, hbelow, List.length_cons, Nat.add_sub_add_right]
      rfl

/-- The identifiers on a route select its sets and values. -/
theorem Route.follow (distinct : s.Distinct) (h : s.Route route) (more : List String) :
    s.follow (route.map (·.branch.id) ++ more) = .ok (route.map Stage.selection, more) := by
  have hall := h.follow_take distinct more (route.length + more.length)
  rwa [List.take_of_length_le (by simp), List.take_of_length_le (by simp), Nat.add_sub_cancel_left,
    List.take_length] at hall

/-- The warning about identifiers that are left over has no part in the selections. -/
theorem result_selections (s : BranchSet ω) (ids : List String) :
    (s.selections ids).result = Prod.fst <$> s.follow ids := by
  rw [selections, Logged.result_bind, Logged.result_liftM]
  cases s.follow ids with
  | error f => rfl
  | ok followed =>
    obtain ⟨selections, rest⟩ := followed
    cases rest with
    | nil => rfl
    | cons next rest => rfl

end BranchSet

namespace Cursor
variable [Mul ω] [OfNat ω 1] {s : BranchSet ω}

theorem paths_start (populated : s.Populated) : (start s).paths = s.paths := by
  rw [paths_eq_trail (start s) (ready_start s populated), start_trail s populated, BranchSet.paths]

/-- The paths of an enumeration show the explored routes. -/
theorem mem_paths_start (populated : s.Populated) {p : Path ω} :
    p ∈ (start s).paths ↔ ∃ route, s.ShownAs route p := by
  rw [paths_start populated, BranchSet.paths, List.mem_map]
  constructor
  · rintro ⟨walk, hwalk, rfl⟩
    obtain ⟨route, hroute, hexplored, rfl⟩ := BranchSet.mem_walks_iff.mp hwalk
    exact ⟨route, hroute, hexplored, rfl⟩
  · rintro ⟨route, hroute, hexplored, rfl⟩
    exact ⟨_, BranchSet.mem_walks_iff.mpr ⟨route, hroute, hexplored, rfl⟩, rfl⟩

end Cursor

end SeismicTree

import SeismicTree.Proofs.TreeSets
import Mathlib.Data.List.Nodup

/-!
# Leaves of a tree

A leaf is known by the way to it, the identifiers of the branches from the root on. A tree is
extended at some of its leaves when a new tree is put behind each of them. Extending at once is the
declarative counterpart of `put`, which reaches one leaf at a time and finds its way by the first
branch of each identifier; the two agree in trees whose sets have no identifier twice.
-/

namespace SeismicTree

variable {ω : Type}

mutual

/-- The ways to the leaves of a tree, in order. -/
def BranchSet.leafWays : BranchSet ω → List (List String)
  | .mk _ bs => Branch.leafWaysOfAll bs

def Branch.leafWays : Branch ω → List (List String)
  | .mk c s => (BranchSet.leafWaysBelow s).map (c.id :: ·)

def BranchSet.leafWaysBelow : Option (BranchSet ω) → List (List String)
  | none => [[]]
  | some s => s.leafWays

def Branch.leafWaysOfAll : List (Branch ω) → List (List String)
  | [] => []
  | b :: bs => b.leafWays ++ Branch.leafWaysOfAll bs

end

mutual

/-- The tree with something put behind its leaves, or not, by the ways to them. -/
def BranchSet.extend (grow : List String → Option (BranchSet ω)) : BranchSet ω → BranchSet ω
  | .mk d bs => .mk d (Branch.extendAll grow bs)

def Branch.extend (grow : List String → Option (BranchSet ω)) : Branch ω → Branch ω
  | .mk c s => .mk c (BranchSet.extendBelow (fun way => grow (c.id :: way)) s)

def BranchSet.extendBelow (grow : List String → Option (BranchSet ω)) :
    Option (BranchSet ω) → Option (BranchSet ω)
  | none => grow []
  | some s => some (s.extend grow)

def Branch.extendAll (grow : List String → Option (BranchSet ω)) :
    List (Branch ω) → List (Branch ω)
  | [] => []
  | b :: bs => b.extend grow :: Branch.extendAll grow bs

end

namespace Branch

theorem leafWaysOfAll_eq (bs : List (Branch ω)) :
    leafWaysOfAll bs = bs.flatMap leafWays := by
  induction bs with
  | nil => rfl
  | cons b bs ih => simp only [leafWaysOfAll, List.flatMap_cons, ih]

theorem extendAll_eq (grow : List String → Option (BranchSet ω)) (bs : List (Branch ω)) :
    extendAll grow bs = bs.map (·.extend grow) := by
  induction bs with
  | nil => rfl
  | cons b bs ih => simp only [extendAll, List.map_cons, ih]

theorem leafWays_eq (b : Branch ω) :
    b.leafWays = (BranchSet.leafWaysBelow b.child).map (b.id :: ·) := by
  cases b
  rfl

@[simp] theorem choice_extend (grow : List String → Option (BranchSet ω)) (b : Branch ω) :
    (b.extend grow).choice = b.choice := by
  cases b
  rfl

@[simp] theorem id_extend (grow : List String → Option (BranchSet ω)) (b : Branch ω) :
    (b.extend grow).id = b.id := by
  cases b
  rfl

theorem child_extend (grow : List String → Option (BranchSet ω)) (b : Branch ω) :
    (b.extend grow).child =
      BranchSet.extendBelow (fun way => grow (b.id :: way)) b.child := by
  cases b
  rfl

theorem eq_of_choice_child {b b' : Branch ω} (hc : b.choice = b'.choice)
    (hs : b.child = b'.child) : b = b' := by
  cases b
  cases b'
  simp_all

end Branch

namespace BranchSet

theorem leafWays_mk (d : Decision) (bs : List (Branch ω)) :
    (mk d bs).leafWays = bs.flatMap Branch.leafWays := by
  rw [leafWays, Branch.leafWaysOfAll_eq]

theorem extend_mk (grow : List String → Option (BranchSet ω)) (d : Decision)
    (bs : List (Branch ω)) :
    (mk d bs).extend grow = mk d (bs.map (·.extend grow)) := by
  rw [extend, Branch.extendAll_eq]

/-- The ways to the leaves of a set, by the branch that they start with. -/
theorem mem_leafWays_mk {d : Decision} {bs : List (Branch ω)} {way : List String} :
    way ∈ (mk d bs).leafWays ↔
      ∃ b ∈ bs, ∃ rest ∈ leafWaysBelow b.child, way = b.id :: rest := by
  simp only [leafWays_mk, List.mem_flatMap, Branch.leafWays_eq, List.mem_map, eq_comm]

theorem leafWay_ne_nil {s : BranchSet ω} {way : List String} (h : way ∈ s.leafWays) :
    way ≠ [] := by
  cases s with
  | mk d bs =>
    obtain ⟨b, _, rest, _, rfl⟩ := mem_leafWays_mk.mp h
    exact List.cons_ne_nil _ _

/-- Only what is put behind the leaves of the tree matters. -/
theorem extend_congr (s : BranchSet ω) {grow grow' : List String → Option (BranchSet ω)}
    (same : ∀ way ∈ s.leafWays, grow way = grow' way) : s.extend grow = s.extend grow' := by
  induction s using induction_branches generalizing grow grow' with
  | step d bs ih =>
    rw [extend_mk, extend_mk]
    refine congrArg (mk d) (List.map_congr_left fun b hb => ?_)
    refine Branch.eq_of_choice_child (by simp) ?_
    rw [Branch.child_extend, Branch.child_extend]
    have hways : ∀ rest ∈ leafWaysBelow b.child, grow (b.id :: rest) = grow' (b.id :: rest) :=
      fun rest hrest => same _ (mem_leafWays_mk.mpr ⟨b, hb, rest, hrest, rfl⟩)
    cases hs : b.child with
    | none =>
      rw [hs] at hways
      exact hways [] List.mem_cons_self
    | some t =>
      rw [hs] at hways
      exact congrArg some (ih b hb t hs hways)

theorem extend_none (s : BranchSet ω) : s.extend (fun _ => none) = s := by
  induction s using induction_branches with
  | step d bs ih =>
    rw [extend_mk]
    refine congrArg (mk d) ((List.map_congr_left fun b hb => ?_).trans (List.map_id bs))
    refine Branch.eq_of_choice_child (by simp) ?_
    rw [Branch.child_extend]
    cases hs : b.child with
    | none => simp [extendBelow, hs]
    | some t => simp [extendBelow, hs, ih b hb t hs]

/-- The leaves of an extended tree: those that nothing was put behind, and those of what was put
behind the others. -/
theorem mem_leafWays_extend {s : BranchSet ω} {grow : List String → Option (BranchSet ω)}
    {way : List String} :
    way ∈ (s.extend grow).leafWays ↔
      ∃ stem ∈ s.leafWays, ∃ rest ∈ leafWaysBelow (grow stem), way = stem ++ rest := by
  induction s using induction_branches generalizing grow way with
  | step d bs ih =>
    have hbelow : ∀ b ∈ bs, ∀ rest : List String,
        rest ∈ leafWaysBelow (b.extend grow).child ↔
          ∃ stem ∈ leafWaysBelow b.child, ∃ more ∈ leafWaysBelow (grow (b.id :: stem)),
            rest = stem ++ more := by
      intro b hb rest
      rw [Branch.child_extend]
      cases hs : b.child with
      | none => simp [extendBelow, leafWaysBelow]
      | some t => exact ih b hb t hs
    rw [extend_mk, mem_leafWays_mk]
    constructor
    · rintro ⟨b', hb', rest, hrest, rfl⟩
      obtain ⟨b, hb, rfl⟩ := List.mem_map.mp hb'
      obtain ⟨stem, hstem, more, hmore, rfl⟩ := (hbelow b hb rest).mp hrest
      refine ⟨b.id :: stem, mem_leafWays_mk.mpr ⟨b, hb, stem, hstem, rfl⟩, more, hmore, ?_⟩
      rw [Branch.id_extend, List.cons_append]
    · rintro ⟨way', hway', more, hmore, rfl⟩
      obtain ⟨b, hb, stem, hstem, rfl⟩ := mem_leafWays_mk.mp hway'
      refine ⟨b.extend grow, List.mem_map_of_mem hb, stem ++ more,
        (hbelow b hb _).mpr ⟨stem, hstem, more, hmore, rfl⟩, ?_⟩
      rw [Branch.id_extend, List.cons_append]

section Lookup

theorem find?_of_mem {bs : List (Branch ω)} (distinct : (bs.map (·.id)).Nodup) {b : Branch ω}
    (hb : b ∈ bs) : bs.find? (·.id == b.id) = some b := by
  induction bs with
  | nil => cases hb
  | cons b' bs ih =>
    obtain ⟨hnew, hrest⟩ := List.nodup_cons.mp distinct
    rcases List.mem_cons.mp hb with rfl | hb
    · simp
    · have hne : b'.id ≠ b.id := fun h => hnew (List.mem_map.mpr ⟨b, hb, h.symm⟩)
      rw [List.find?_cons_of_neg (by simpa using hne)]
      exact ih hrest hb

/-- Nothing is reached along the way to a leaf. -/
theorem at?_of_leafWay {s : BranchSet ω} (distinct : s.Distinct) {way : List String}
    (h : way ∈ s.leafWays) : s.at? way = none := by
  induction s using induction_branches generalizing way with
  | step d bs ih =>
    obtain ⟨hids, hbelow⟩ := distinct_mk.mp distinct
    obtain ⟨b, hb, rest, hrest, rfl⟩ := mem_leafWays_mk.mp h
    rw [at?, branches_mk, find?_of_mem hids hb, Option.bind_some]
    cases hs : b.child with
    | none => rfl
    | some t =>
      rw [hs] at hrest
      exact ih b hb t hs (hbelow b hb t hs) hrest

/-- What is reached in a tree is reached, extended, in the extended tree. -/
theorem at?_extend_of_at? {s u : BranchSet ω} (grow : List String → Option (BranchSet ω))
    {way : List String} (h : s.at? way = some u) :
    ∃ grow', (s.extend grow).at? way = some (u.extend grow') := by
  induction way generalizing s grow with
  | nil =>
    cases h
    exact ⟨grow, rfl⟩
  | cons id way ih =>
    cases s with
    | mk d bs =>
      rw [at?, branches_mk, Option.bind_eq_some_iff] at h
      obtain ⟨b, hfind, hrest⟩ := h
      obtain ⟨t, ht, hway⟩ := Option.bind_eq_some_iff.mp hrest
      obtain ⟨grow', hgrow'⟩ := ih (fun way => grow (b.id :: way)) hway
      refine ⟨grow', ?_⟩
      have hsame : ((·.id == id) ∘ fun b : Branch ω => b.extend grow)
          = fun b : Branch ω => b.id == id := by
        funext b
        simp
      rw [extend_mk, at?, branches_mk, List.find?_map, hsame, hfind, Option.map_some,
        Option.bind_some, Branch.child_extend, ht]
      exact hgrow'

/-- Behind a leaf stands what was put there. -/
theorem at?_extend_leafWay {s : BranchSet ω} (distinct : s.Distinct)
    (grow : List String → Option (BranchSet ω)) {way : List String} (h : way ∈ s.leafWays) :
    (s.extend grow).at? way = grow way := by
  induction s using induction_branches generalizing way grow with
  | step d bs ih =>
    obtain ⟨hids, hbelow⟩ := distinct_mk.mp distinct
    obtain ⟨b, hb, rest, hrest, rfl⟩ := mem_leafWays_mk.mp h
    have hmap : (bs.map (·.extend grow)).map (·.id) = bs.map (·.id) := by simp
    have hfind := find?_of_mem (hmap.symm ▸ hids) (List.mem_map_of_mem (f := (·.extend grow)) hb)
    rw [Branch.id_extend] at hfind
    rw [extend_mk, at?, branches_mk, hfind, Option.bind_some, Branch.child_extend]
    cases hs : b.child with
    | none =>
      rw [hs] at hrest
      cases List.mem_singleton.mp hrest
      cases hgrow : grow [b.id] with
      | none => simp [extendBelow, hgrow]
      | some t => simp [extendBelow, hgrow, at?]
    | some t =>
      rw [hs] at hrest
      exact ih b hb t hs (hbelow b hb t hs) (fun way => grow (b.id :: way)) hrest

theorem onBranch_eq_map {d : Decision} {bs : List (Branch ω)} {id : String}
    (distinct : (bs.map (·.id)).Nodup) (f : Branch ω → Branch ω) :
    (mk d bs).onBranch id f = mk d (bs.map fun b => if b.id = id then f b else b) := by
  refine congrArg (mk d) ?_
  rw [branches_mk]
  induction bs with
  | nil => rfl
  | cons b bs ih =>
    obtain ⟨hnew, hrest⟩ := List.nodup_cons.mp distinct
    by_cases h : b.id = id
    · have hothers : bs.map (fun b => if b.id = id then f b else b) = bs := by
        refine (List.map_congr_left fun b' hb' => ?_).trans (List.map_id bs)
        have hne : b'.id ≠ id := fun h' => hnew (List.mem_map.mpr ⟨b', hb', h'.trans h.symm⟩)
        simp [hne]
      simp [List.findIdx_cons, h, hothers]
    · have hfind : (b.id == id) = false := by simpa using h
      simp [List.findIdx_cons, h, hfind, ih hrest]

/-- In an extended tree, changing one branch of the root changes what is put behind its leaves. -/
theorem onBranch_extend {d : Decision} {bs : List (Branch ω)} {b : Branch ω}
    (distinct : (bs.map (·.id)).Nodup) (hb : b ∈ bs) (f : Branch ω → Branch ω)
    {grow grow' : List String → Option (BranchSet ω)} (here : f (b.extend grow) = b.extend grow')
    (others : ∀ id ≠ b.id, ∀ way, grow (id :: way) = grow' (id :: way)) :
    ((mk d bs).extend grow).onBranch b.id f = (mk d bs).extend grow' := by
  have hmap : (bs.map (·.extend grow)).map (·.id) = bs.map (·.id) := by simp
  rw [extend_mk, onBranch_eq_map (hmap.symm ▸ distinct), extend_mk, List.map_map]
  refine congrArg (mk d) (List.map_congr_left fun b' hb' => ?_)
  by_cases h : b'.id = b.id
  · have hsame : b' = b := List.inj_on_of_nodup_map distinct hb' hb h
    simp [hsame, here]
  · simp only [Function.comp_apply, Branch.id_extend, if_neg h]
    refine Branch.eq_of_choice_child (by simp) ?_
    rw [Branch.child_extend, Branch.child_extend, funext (others b'.id h)]

theorem put_cons (new s : BranchSet ω) (id : String) {way : List String} (h : way ≠ []) :
    put new (id :: way) s = s.onBranch id fun b => b.withChild (b.child.map (put new way)) := by
  cases way with
  | nil => exact absurd rfl h
  | cons => rfl

/-- Putting a tree behind one more leaf of a tree that is already extended at others. -/
theorem put_extend {s : BranchSet ω} (new : BranchSet ω) (distinct : s.Distinct)
    (grow : List String → Option (BranchSet ω)) {way : List String} (h : way ∈ s.leafWays) :
    put new way (s.extend grow) = s.extend (Function.update grow way (some new)) := by
  induction s using induction_branches generalizing way grow with
  | step d bs ih =>
    obtain ⟨hids, hbelow⟩ := distinct_mk.mp distinct
    obtain ⟨b, hb, rest, hrest, rfl⟩ := mem_leafWays_mk.mp h
    have others : ∀ id ≠ b.id, ∀ way : List String,
        grow (id :: way) = Function.update grow (b.id :: rest) (some new) (id :: way) := by
      intro id hid way
      rw [Function.update_of_ne]
      intro heq
      exact hid (List.cons.inj heq).1
    have hbehind : (fun way => Function.update grow (b.id :: rest) (some new) (b.id :: way))
        = Function.update (fun way => grow (b.id :: way)) rest (some new) := by
      funext way
      by_cases hway : way = rest <;> simp [Function.update, hway]
    cases hs : b.child with
    | none =>
      rw [hs] at hrest
      cases List.mem_singleton.mp hrest
      refine onBranch_extend hids hb _ ?_ others
      refine Branch.eq_of_choice_child (by simp [Branch.withChild]) ?_
      simp [Branch.withChild, Branch.child_extend, hs, extendBelow]
    | some t =>
      rw [hs] at hrest
      rw [put_cons _ _ _ (leafWay_ne_nil hrest)]
      refine onBranch_extend hids hb _ ?_ others
      refine Branch.eq_of_choice_child (by simp [Branch.withChild]) ?_
      rw [Branch.withChild, Branch.child_mk, Branch.child_extend, Branch.child_extend, hs, hbehind]
      exact congrArg some (ih b hb t hs (hbelow b hb t hs) _ hrest)

/-- Putting one tree behind leaves, one after the other and in any order, extends the tree at all of
them. A leaf that is named again gets the same once more. -/
theorem foldl_put {s : BranchSet ω} (new : BranchSet ω) (distinct : s.Distinct)
    (ways : List (List String)) (h : ∀ way ∈ ways, way ∈ s.leafWays) :
    ways.foldl (fun t way => put new way t) s =
      s.extend fun way => if way ∈ ways then some new else none := by
  suffices hfrom : ∀ grow : List String → Option (BranchSet ω),
      ways.foldl (fun t way => put new way t) (s.extend grow) =
        s.extend fun way => if way ∈ ways then some new else grow way by
    simpa [extend_none] using hfrom fun _ => none
  induction ways with
  | nil => intro grow; simp
  | cons way ways ih =>
    intro grow
    obtain ⟨hway, hways⟩ := List.forall_mem_cons.mp h
    rw [List.foldl_cons, put_extend new distinct grow hway, ih hways]
    refine extend_congr s fun way' _ => ?_
    by_cases hmore : way' ∈ ways
    · simp [hmore]
    · by_cases heq : way' = way
      · simp [heq]
      · simp [hmore, heq]

end Lookup

end BranchSet

end SeismicTree

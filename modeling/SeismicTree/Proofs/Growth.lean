import SeismicTree.Proofs.Results
import SeismicTree.Proofs.Unfolding

/-!
# A tree in growth follows the unfolding

The levels that are closed and the sets placed so far in the level in progress determine the tree in
growth: it is their unfolding. Of the leaves that are not lost, the open ones without a set behind
them are its leaves with a branch of a closed level, and the fresh ones are its leaves with a branch
of the level in progress. How often a list holds a leaf is not claimed, nor which lost leaves.
-/

namespace SeismicTree

variable {ω : Type}

/-- What is put behind a leaf, by the identifier of its branch. -/
def byLast (grow : String → Option (BranchSet ω)) (way : List String) : Option (BranchSet ω) :=
  way.getLast?.bind grow

@[simp] theorem byLast_singleton (grow : String → Option (BranchSet ω)) (id : String) :
    byLast grow [id] = grow id := rfl

theorem byLast_cons (grow : String → Option (BranchSet ω)) (id : String) {way : List String}
    (h : way ≠ []) : byLast grow (id :: way) = byLast grow way := by
  rw [byLast, byLast, List.getLast?_cons_of_ne_nil h]

namespace ListedSet

/-- A set in front of other levels is an extension, if what stands behind each of its branches
is. -/
theorem before_eq_extend (s : ListedSet ω) {grow : String → Option (BranchSet ω)}
    {later later' : List (List (ListedSet ω))}
    (h : ∀ c ∈ s.choices, BranchSet.behind c.id later' =
      BranchSet.extendBelow (fun way => byLast grow (c.id :: way)) (BranchSet.behind c.id later)) :
    s.before later' = (s.before later).extend (byLast grow) := by
  rw [before, before, BranchSet.extend_mk, List.map_map]
  refine congrArg (BranchSet.mk s.decision) (List.map_congr_left fun c hc => ?_)
  refine Branch.eq_of_choice_child (by simp) ?_
  rw [Function.comp_apply, Branch.child_extend]
  exact h c hc

theorem extend_before_nil (s : ListedSet ω) {grow : String → Option (BranchSet ω)}
    (h : ∀ id ∈ s.ids, grow id = none) : (s.before []).extend (byLast grow) = s.before [] := by
  refine (s.before_eq_extend fun c hc => ?_).symm
  exact (h c.id (List.mem_map_of_mem hc)).symm

end ListedSet

namespace BranchSet

theorem extend_byLast_cons (t : BranchSet ω) (grow : String → Option (BranchSet ω))
    (id : String) : t.extend (fun way => byLast grow (id :: way)) = t.extend (byLast grow) :=
  extend_congr t fun _ hway => byLast_cons grow id (leafWay_ne_nil hway)

section OneMore
variable {s : ListedSet ω} {current : List (ListedSet ω)}
variable {grow : String → Option (BranchSet ω)}

/-- One more set at the end of the last level. What it puts behind a branch of an earlier level is
told by `covers`; behind a branch of the last level it puts nothing. -/
theorem behind_append_set (later : List (List (ListedSet ω))) (id : String)
    (earlier : ∀ s' ∈ later.flatten, ∀ id ∈ s'.ids,
      grow id = if s.reach.covers id then some s.leafSet else none)
    (last : ∀ s' ∈ current, ∀ id ∈ s'.ids, grow id = none)
    (hid : grow id = if s.reach.covers id then some s.leafSet else none) :
    behind id (later ++ [current ++ [s]]) =
      extendBelow (fun way => byLast grow (id :: way)) (behind id (later ++ [current])) := by
  induction later generalizing id with
  | nil =>
    simp only [List.nil_append, behind_cons, List.find?_append]
    cases hfind : current.find? (·.reach.covers id) with
    | some s' =>
      simp only [Option.some_or, extendBelow, extend_byLast_cons]
      rw [s'.extend_before_nil (last s' (List.mem_of_find?_eq_some hfind))]
    | none =>
      simp only [Option.none_or, behind, extendBelow, byLast_singleton, hid]
      cases hcovers : s.reach.covers id <;> simp [hcovers, ListedSet.leafSet_eq_before]
  | cons level later ih =>
    have hbelow : ∀ id,
        (grow id = if s.reach.covers id then some s.leafSet else none) →
        behind id (later ++ [current ++ [s]]) =
          extendBelow (fun way => byLast grow (id :: way)) (behind id (later ++ [current])) :=
      fun id hid => ih id (fun s' hs' => earlier s' (List.mem_append_right _ hs')) hid
    simp only [List.cons_append, behind_cons]
    cases hfind : level.find? (·.reach.covers id) with
    | none => exact hbelow id hid
    | some s' =>
      have hs' : s' ∈ (level :: later).flatten :=
        List.mem_append_left _ (List.mem_of_find?_eq_some hfind)
      simp only [extendBelow, extend_byLast_cons]
      refine congrArg some (s'.before_eq_extend fun c hc => hbelow c.id ?_)
      exact earlier s' hs' c.id (List.mem_map_of_mem hc)

/-- The unfolding with one more set at the end of the last level. Without a root the set becomes the
root. -/
theorem ofLevels?_append_set (levels : List (List (ListedSet ω)))
    (earlier : ∀ s' ∈ levels.flatten, ∀ id ∈ s'.ids,
      grow id = if s.reach.covers id then some s.leafSet else none)
    (last : ∀ s' ∈ current, ∀ id ∈ s'.ids, grow id = none) :
    ofLevels? (levels ++ [current ++ [s]]) =
      match ofLevels? (levels ++ [current]) with
      | some t => some (t.extend (byLast grow))
      | none => some s.leafSet := by
  induction levels with
  | nil =>
    cases current with
    | nil => rfl
    | cons s' current =>
      exact congrArg some (s'.extend_before_nil (last s' List.mem_cons_self)).symm
  | cons level later ih =>
    have hlater : ∀ s' ∈ later.flatten, ∀ id ∈ s'.ids,
        grow id = if s.reach.covers id then some s.leafSet else none :=
      fun s' hs' => earlier s' (List.mem_append_right _ hs')
    cases level with
    | nil => exact ih hlater
    | cons s' level =>
      refine congrArg some (s'.before_eq_extend fun c hc => ?_)
      refine behind_append_set later c.id hlater last ?_
      exact earlier s' List.mem_cons_self c.id (List.mem_map_of_mem hc)

end OneMore

theorem behind_append_nil (id : String) (levels : List (List (ListedSet ω))) :
    behind id (levels ++ [[]]) = behind id levels := by
  induction levels generalizing id with
  | nil => rfl
  | cons level later ih => simp only [List.cons_append, behind_cons, ListedSet.before, ih]

/-- A level without sets changes nothing. -/
theorem ofLevels?_append_nil (levels : List (List (ListedSet ω))) :
    ofLevels? (levels ++ [[]]) = ofLevels? levels := by
  induction levels with
  | nil => rfl
  | cons level later ih =>
    cases level with
    | nil => exact ih
    | cons s level => simp only [List.cons_append, ofLevels?, behind_append_nil]

end BranchSet

/-- A way ends in a branch of one of the sets. -/
def EndsIn (sets : List (ListedSet ω)) (way : List String) : Prop :=
  ∃ id ∈ sets.flatMap ListedSet.ids, way.getLast? = some id

theorem endsIn_append {sets sets' : List (ListedSet ω)} {way : List String} :
    EndsIn (sets ++ sets') way ↔ EndsIn sets way ∨ EndsIn sets' way := by
  simp only [EndsIn, List.flatMap_append, List.mem_append, or_and_right, exists_or]

theorem endsIn_concat_iff {sets : List (ListedSet ω)} {stem : List String} {id : String} :
    EndsIn sets (stem ++ [id]) ↔ id ∈ sets.flatMap ListedSet.ids := by
  simp [EndsIn]

theorem endsIn_disjoint {sets sets' : List (ListedSet ω)} {way : List String}
    (distinct : ((sets ++ sets').flatMap ListedSet.ids).Nodup) (h : EndsIn sets way) :
    ¬ EndsIn sets' way := by
  rintro ⟨id', hid', hlast'⟩
  obtain ⟨id, hid, hlast⟩ := h
  rw [List.flatMap_append] at distinct
  have heq : id = id' := Option.some.inj (hlast.symm.trans hlast')
  exact List.disjoint_of_nodup_append distinct hid (heq ▸ hid')

namespace BranchSet

theorem leafWay_ends {t : BranchSet ω} {way : List String} (h : way ∈ t.leafWays) :
    ∃ b ∈ t.occurrences, way.getLast? = some b.id := by
  induction t using induction_branches generalizing way with
  | step d bs ih =>
    obtain ⟨b, hb, rest, hrest, rfl⟩ := mem_leafWays_mk.mp h
    cases hs : b.child with
    | none =>
      rw [hs] at hrest
      cases List.mem_singleton.mp hrest
      exact ⟨b, mem_occurrences_mk.mpr (Or.inl hb), rfl⟩
    | some u =>
      rw [hs] at hrest
      obtain ⟨b', hb', hlast⟩ := ih b hb u hs hrest
      refine ⟨b', mem_occurrences_mk.mpr (Or.inr ⟨b, hb, u, hs, hb'⟩), ?_⟩
      rw [List.getLast?_cons_of_ne_nil (leafWay_ne_nil hrest), hlast]

theorem leafWay_endsIn {levels : List (List (ListedSet ω))} {t : BranchSet ω}
    (h : ofLevels? levels = some t) {way : List String} (hway : way ∈ t.leafWays) :
    EndsIn levels.flatten way := by
  obtain ⟨b, hb, hlast⟩ := leafWay_ends hway
  obtain ⟨level, later, s, hsuffix, hs, hc, _⟩ := mem_occurrences_ofLevels? h hb
  have hmem := (flatten_suffix hsuffix).subset (List.mem_append_left _ hs)
  exact ⟨b.id, List.mem_flatMap.mpr ⟨s, hmem, List.mem_map_of_mem hc⟩, hlast⟩

theorem distinct_ofLevels? {levels : List (List (ListedSet ω))} {t : BranchSet ω}
    (distinct : (levels.flatten.flatMap ListedSet.ids).Nodup) (h : ofLevels? levels = some t) :
    t.Distinct := by
  intro u hu
  obtain ⟨level, later, s, hsuffix, hs, rfl⟩ := mem_sets_ofLevels? h hu
  have hmem := (flatten_suffix hsuffix).subset (List.mem_append_left _ hs)
  have hids : (s.before later).branches.map (·.id) = s.ids := by
    rw [ListedSet.ids, ← (s.describes_before later).2, List.map_map]
    rfl
  rw [hids]
  exact (List.nodup_flatMap.mp distinct).1 s hmem

end BranchSet

namespace Growth

/-- The growth after some closed levels and some sets of the level in progress. -/
structure Follows (levels : List (List (ListedSet ω))) (current : List (ListedSet ω))
    (g : Growth ω) : Prop where
  tree : g.tree = BranchSet.ofLevels? (levels ++ [current])
  available : ∀ t, g.tree = some t →
    ∀ way, Leaf.ofWay way ∈ g.available ↔ way ∈ t.leafWays ∧ EndsIn levels.flatten way
  fresh : ∀ t, g.tree = some t →
    ∀ way, Leaf.ofWay way ∈ g.fresh ↔ way ∈ t.leafWays ∧ EndsIn current way
  rootless : g.tree = none → g.openLeaves = [] ∧ g.fresh = []

theorem start_follows : Follows [] [] (start : Growth ω) where
  tree := rfl
  available := by intro t h; cases h
  fresh := by intro t h; cases h
  rootless := fun _ => ⟨rfl, rfl⟩

theorem mem_available {g : Growth ω} {t : BranchSet ω} (h : g.tree = some t) (way : List String) :
    Leaf.ofWay way ∈ g.available ↔ Leaf.ofWay way ∈ g.openLeaves ∧ t.at? way = none := by
  simp [available, h, Leaf.ofWay]

/-- The name that comes first is the one of some leaves, and they are the first targets. -/
theorem targets_named_cons {leaves chosen : List Leaf} {name : String} {names : List String}
    (h : targets leaves (.named (name :: names)) = .ok chosen) :
    ∃ rest, targets leaves (.named names) = .ok rest ∧
      chosen = leaves.filter (·.way.getLast? == some name) ++ rest ∧
      leaves.filter (·.way.getLast? == some name) ≠ [] := by
  obtain ⟨lists, hlists, rfl⟩ := map_eq_ok.mp h
  obtain ⟨chosen, rest, hchosen, hrest, rfl⟩ := mapM_cons_eq_ok.mp hlists
  refine ⟨rest.flatten, map_eq_ok.mpr ⟨rest, hrest, rfl⟩, ?_⟩
  split at hchosen
  · cases hchosen
  · rename_i hsome
    cases hchosen
    exact ⟨rfl, hsome⟩

/-- The targets of a set are the leaves that it covers. -/
theorem mem_targets {leaves chosen : List Leaf} {reach : Reach}
    (h : targets leaves reach = .ok chosen) {leaf : Leaf} {id : String}
    (hlast : leaf.way.getLast? = some id) :
    leaf ∈ chosen ↔ leaf ∈ leaves ∧ reach.covers id = true := by
  cases reach with
  | everyLeaf =>
    rw [targets] at h
    split at h
    · cases h
    · cases h
      simp [Reach.covers]
  | named names =>
    induction names generalizing chosen with
    | nil =>
      cases h
      simp [Reach.covers]
    | cons name names ih =>
      obtain ⟨rest, hrest, rfl, _⟩ := targets_named_cons h
      rw [List.mem_append, ih hrest, List.mem_filter]
      simp only [Reach.covers, List.contains_cons, hlast]
      grind

theorem targets_subset {leaves chosen : List Leaf} {reach : Reach}
    (h : targets leaves reach = .ok chosen) : chosen ⊆ leaves := by
  cases reach with
  | everyLeaf =>
    rw [targets] at h
    split at h
    · cases h
    · cases h
      exact List.Subset.refl _
  | named names =>
    induction names generalizing chosen with
    | nil =>
      cases h
      exact List.nil_subset _
    | cons name names ih =>
      obtain ⟨rest, hrest, rfl, _⟩ := targets_named_cons h
      exact List.append_subset.mpr ⟨List.filter_subset_self _, ih hrest⟩

theorem mem_standingWays {leaves : List Leaf} {way : List String} :
    way ∈ standingWays leaves ↔ Leaf.ofWay way ∈ leaves := by
  simp only [standingWays, List.mem_map, List.mem_filter, Bool.not_eq_true']
  constructor
  · rintro ⟨⟨way, lost⟩, ⟨hleaf, rfl⟩, rfl⟩
    exact hleaf
  · exact fun hleaf => ⟨Leaf.ofWay way, ⟨hleaf, rfl⟩, rfl⟩

/-- What a set puts behind a branch: itself, if it covers the branch and the branch is of a closed
level. -/
def puts (levels : List (List (ListedSet ω))) (s : ListedSet ω) (id : String) :
    Option (BranchSet ω) :=
  if id ∈ levels.flatten.flatMap ListedSet.ids ∧ s.reach.covers id = true then some s.leafSet
  else none

section Place
variable {levels : List (List (ListedSet ω))} {current : List (ListedSet ω)} {s : ListedSet ω}

theorem mem_waysBehind {stem way : List String} :
    way ∈ waysBehind stem s ↔ ∃ id ∈ s.ids, way = stem ++ [id] := by
  simp only [waysBehind, ListedSet.ids, List.mem_map]
  constructor
  · rintro ⟨c, hc, rfl⟩
    exact ⟨c.id, ⟨c, hc, rfl⟩, rfl⟩
  · rintro ⟨id, ⟨c, hc, rfl⟩, rfl⟩
    exact ⟨c, hc, rfl⟩

theorem mem_leafWays_leafSet {way : List String} :
    way ∈ s.leafSet.leafWays ↔ way ∈ waysBehind [] s := by
  rw [mem_waysBehind, ListedSet.leafSet_eq_before, ListedSet.before, BranchSet.mem_leafWays_mk]
  constructor
  · rintro ⟨b, hb, rest, hrest, rfl⟩
    obtain ⟨c, hc, rfl⟩ := List.mem_map.mp hb
    cases List.mem_singleton.mp hrest
    exact ⟨c.id, List.mem_map_of_mem hc, rfl⟩
  · rintro ⟨id, hid, rfl⟩
    obtain ⟨c, hc, rfl⟩ := List.mem_map.mp hid
    exact ⟨_, List.mem_map_of_mem hc, [], List.mem_singleton_self _, rfl⟩

/-- Of the leaves that a set brings, those behind the standing targets are in the tree: each of
them is in the last copy. -/
theorem mem_brought {leaves : List Leaf} {way : List String} :
    Leaf.ofWay way ∈ brought s leaves ↔
      way ∈ (standingWays leaves).flatMap (waysBehind · s) := by
  simp only [List.mem_flatMap, mem_standingWays]
  induction leaves with
  | nil => simp [brought]
  | cons leaf later ih =>
    have hfirst : Leaf.ofWay way ∈
        (waysBehind leaf.way s).map (Leaf.mk · (leaf.lost || later.contains leaf)) ↔
          way ∈ waysBehind leaf.way s ∧ leaf.lost = false ∧ leaf ∉ later := by
      simp [Leaf.ofWay, and_comm, and_assoc]
    rw [brought, List.mem_append, hfirst, ih]
    constructor
    · rintro (⟨hway, hlost, _⟩ | ⟨stem, hstem, hway⟩)
      · refine ⟨leaf.way, ?_, hway⟩
        have hleaf : Leaf.ofWay leaf.way = leaf := by rw [Leaf.ofWay, ← hlost]
        exact hleaf ▸ List.mem_cons_self
      · exact ⟨stem, List.mem_cons_of_mem leaf hstem, hway⟩
    · rintro ⟨stem, hstem, hway⟩
      by_cases hlater : Leaf.ofWay stem ∈ later
      · exact Or.inr ⟨stem, hlater, hway⟩
      · cases (List.mem_cons.mp hstem).resolve_right hlater
        exact Or.inl ⟨hway, rfl, hlater⟩

/-- The tree after a set is placed is again the unfolding. -/
theorem ofLevels?_place
    (distinct : ((levels.flatten ++ current ++ [s]).flatMap ListedSet.ids).Nodup) :
    BranchSet.ofLevels? (levels ++ [current ++ [s]]) =
      match BranchSet.ofLevels? (levels ++ [current]) with
      | some t => some (t.extend (byLast (puts levels s)))
      | none => some s.leafSet := by
  refine BranchSet.ofLevels?_append_set levels ?earlier ?last
  case earlier =>
    intro s' hs' id hid
    have hmem : id ∈ levels.flatten.flatMap ListedSet.ids := List.mem_flatMap.mpr ⟨s', hs', hid⟩
    simp [puts, hmem]
  case last =>
    intro s' hs' id hid
    rw [List.flatMap_append, List.flatMap_append] at distinct
    have hdisjoint := List.disjoint_of_nodup_append (List.nodup_append.mp distinct).1
    have hnot : id ∉ levels.flatten.flatMap ListedSet.ids :=
      fun h => hdisjoint h (List.mem_flatMap.mpr ⟨s', hs', hid⟩)
    simp [puts, hnot]

/-- The leaves after a set is put behind some leaves. -/
theorem mem_leafWays_put {t : BranchSet ω} {ways : List (List String)}
    (h : ∀ way ∈ ways, way ∈ t.leafWays) {way : List String} :
    way ∈ (t.extend fun way => if way ∈ ways then some s.leafSet else none).leafWays ↔
      (way ∈ t.leafWays ∧ way ∉ ways) ∨ way ∈ ways.flatMap (waysBehind · s) := by
  rw [BranchSet.mem_leafWays_extend]
  constructor
  · rintro ⟨stem, hstem, rest, hrest, rfl⟩
    by_cases hin : stem ∈ ways
    · rw [if_pos hin] at hrest
      obtain ⟨id, hid, rfl⟩ := mem_waysBehind.mp (mem_leafWays_leafSet.mp hrest)
      refine Or.inr (List.mem_flatMap.mpr ⟨stem, hin, mem_waysBehind.mpr ⟨id, hid, ?_⟩⟩)
      simp
    · rw [if_neg hin] at hrest
      cases List.mem_singleton.mp hrest
      rw [List.append_nil]
      exact Or.inl ⟨hstem, hin⟩
  · rintro (⟨hway, hout⟩ | hbehind)
    · refine ⟨way, hway, [], ?_, by simp⟩
      rw [if_neg hout]
      exact List.mem_singleton_self _
    · obtain ⟨stem, hstem, hmem⟩ := List.mem_flatMap.mp hbehind
      obtain ⟨id, hid, rfl⟩ := mem_waysBehind.mp hmem
      refine ⟨stem, h stem hstem, [id], ?_, rfl⟩
      rw [if_pos hstem]
      exact mem_leafWays_leafSet.mpr (mem_waysBehind.mpr ⟨id, hid, rfl⟩)

theorem endsIn_waysBehind (ways : List (List String)) {way : List String}
    (h : way ∈ ways.flatMap (waysBehind · s)) : EndsIn [s] way := by
  obtain ⟨stem, _, hmem⟩ := List.mem_flatMap.mp h
  obtain ⟨id, hid, rfl⟩ := mem_waysBehind.mp hmem
  exact endsIn_concat_iff.mpr (by simpa using hid)

/-- Of the leaves that were available, those that a set was put behind no longer are. -/
theorem mem_available_put {g : Growth ω} {t : BranchSet ω} (ways : List (List String))
    (tree : g.tree = some t) (distinct : t.Distinct)
    (havailable : ∀ way, Leaf.ofWay way ∈ g.available → way ∈ t.leafWays) (way : List String) :
    Leaf.ofWay way ∈ g.openLeaves ∧
        (t.extend fun way => if way ∈ ways then some s.leafSet else none).at? way = none ↔
      Leaf.ofWay way ∈ g.available ∧ way ∉ ways := by
  constructor
  · rintro ⟨hopen, hnone⟩
    have hbefore : t.at? way = none := by
      cases hat : t.at? way with
      | none => rfl
      | some u =>
        obtain ⟨grow, hgrown⟩ := BranchSet.at?_extend_of_at? _ hat
        cases hgrown.symm.trans hnone
    have hmem := (mem_available tree way).mpr ⟨hopen, hbefore⟩
    refine ⟨hmem, fun hin => ?_⟩
    rw [BranchSet.at?_extend_leafWay distinct _ (havailable way hmem), if_pos hin] at hnone
    cases hnone
  · rintro ⟨hmem, hout⟩
    refine ⟨((mem_available tree way).mp hmem).1, ?_⟩
    rw [BranchSet.at?_extend_leafWay distinct _ (havailable way hmem), if_neg hout]

/-- The first set of all becomes the root. -/
theorem place_follows_root {g g' : Growth ω} (follows : Follows levels current g)
    (distinct : ((levels.flatten ++ current ++ [s]).flatMap ListedSet.ids).Nodup)
    (root : g.tree = none) (h : g.place s = .ok g') : Follows levels (current ++ [s]) g' := by
  obtain ⟨hopen, hfresh⟩ := follows.rootless root
  simp only [place, root, hfresh, List.nil_append] at h
  cases h
  have htree := ofLevels?_place distinct
  rw [← follows.tree, root] at htree
  refine ⟨htree.symm, ?available, ?fresh, by intro h; cases h⟩
  case available =>
    intro t ht way
    cases ht
    rw [mem_available rfl, hopen]
    constructor
    · rintro ⟨hway, _⟩
      cases hway
    · rintro ⟨hway, hends⟩
      have hnew : EndsIn [s] way :=
        endsIn_waysBehind [[]] (by simpa using mem_leafWays_leafSet.mp hway)
      rw [List.append_assoc] at distinct
      exact absurd (endsIn_append.mpr (Or.inr hnew)) (endsIn_disjoint distinct hends)
  case fresh =>
    intro t ht way
    cases ht
    have hbrought : Leaf.ofWay way ∈ (waysBehind [] s).map Leaf.ofWay ↔ way ∈ waysBehind [] s := by
      simp [Leaf.ofWay]
    rw [hbrought, mem_leafWays_leafSet]
    constructor
    · intro hway
      refine ⟨hway, endsIn_append.mpr (Or.inr ?_)⟩
      exact endsIn_waysBehind [[]] (by simpa using hway)
    · exact fun hway => hway.1

/-- Of all leaves, the targets of a set are those that it covers and whose level is closed. -/
theorem extend_puts {g : Growth ω} {t : BranchSet ω} {chosen : List Leaf}
    (unfold : BranchSet.ofLevels? (levels ++ [current]) = some t)
    (available : ∀ way,
      Leaf.ofWay way ∈ g.available ↔ way ∈ t.leafWays ∧ EndsIn levels.flatten way)
    (h : targets g.available s.reach = .ok chosen) :
    t.extend (byLast (puts levels s)) =
      t.extend fun way => if way ∈ standingWays chosen then some s.leafSet else none := by
  refine BranchSet.extend_congr t fun way hway => ?_
  obtain ⟨id, _, hlast⟩ := BranchSet.leafWay_endsIn unfold hway
  have hends : EndsIn levels.flatten way ↔ id ∈ levels.flatten.flatMap ListedSet.ids := by
    simp [EndsIn, hlast]
  have htarget : Leaf.ofWay way ∈ chosen ↔
      Leaf.ofWay way ∈ g.available ∧ s.reach.covers id = true := mem_targets h hlast
  simp only [byLast, hlast, Option.bind_some, puts, mem_standingWays, htarget, available way, hends,
    hway, true_and]

/-- Of the leaves after a set is put behind some leaves, those of closed levels were there before,
and the set was not put behind them. -/
theorem mem_leafWays_put_closed {t : BranchSet ω} {ways : List (List String)}
    (distinct : ((levels.flatten ++ current ++ [s]).flatMap ListedSet.ids).Nodup)
    (h : ∀ way ∈ ways, way ∈ t.leafWays) {way : List String} :
    way ∈ (t.extend fun way => if way ∈ ways then some s.leafSet else none).leafWays ∧
        EndsIn levels.flatten way ↔
      (way ∈ t.leafWays ∧ EndsIn levels.flatten way) ∧ way ∉ ways := by
  rw [mem_leafWays_put h]
  constructor
  · rintro ⟨⟨hway, hout⟩ | hbehind, hends⟩
    · exact ⟨⟨hway, hends⟩, hout⟩
    · have hold : EndsIn (levels.flatten ++ current) way := endsIn_append.mpr (Or.inl hends)
      exact absurd (endsIn_waysBehind ways hbehind) (endsIn_disjoint distinct hold)
  · rintro ⟨⟨hway, hends⟩, hout⟩
    exact ⟨Or.inl ⟨hway, hout⟩, hends⟩

/-- Of the leaves after a set is put behind leaves of closed levels, those of the level in progress
are the earlier ones and those of the set. -/
theorem mem_leafWays_put_current {t : BranchSet ω} {ways : List (List String)}
    (unfold : BranchSet.ofLevels? (levels ++ [current]) = some t)
    (distinct : ((levels.flatten ++ current ++ [s]).flatMap ListedSet.ids).Nodup)
    (h : ∀ way ∈ ways, way ∈ t.leafWays ∧ EndsIn levels.flatten way) {way : List String} :
    way ∈ (t.extend fun way => if way ∈ ways then some s.leafSet else none).leafWays ∧
        EndsIn (current ++ [s]) way ↔
      (way ∈ t.leafWays ∧ EndsIn current way) ∨ way ∈ ways.flatMap (waysBehind · s) := by
  have hbefore : ((levels.flatten ++ current).flatMap ListedSet.ids).Nodup := by
    rw [List.flatMap_append] at distinct
    exact (List.nodup_append.mp distinct).1
  rw [mem_leafWays_put fun way hway => (h way hway).1, endsIn_append]
  constructor
  · rintro ⟨⟨hway, hout⟩ | hbehind, hends⟩
    · rcases hends with hends | hends
      · exact Or.inl ⟨hway, hends⟩
      · have hold := BranchSet.leafWay_endsIn unfold hway
        rw [flatten_concat] at hold
        exact absurd hends (endsIn_disjoint distinct hold)
    · exact Or.inr hbehind
  · rintro (⟨hway, hends⟩ | hbehind)
    · have hout : way ∉ ways := fun hin => endsIn_disjoint hbefore (h way hin).2 hends
      exact ⟨Or.inl ⟨hway, hout⟩, Or.inl hends⟩
    · exact ⟨Or.inr hbehind, Or.inr (endsIn_waysBehind ways hbehind)⟩

/-- A later set is put behind the open leaves that it covers. -/
theorem place_follows_tree {g g' : Growth ω} (follows : Follows levels current g)
    (distinct : ((levels.flatten ++ current ++ [s]).flatMap ListedSet.ids).Nodup)
    {t : BranchSet ω} (tree : g.tree = some t) (h : g.place s = .ok g') :
    Follows levels (current ++ [s]) g' := by
  simp only [place, tree] at h
  obtain ⟨chosen, hchosen, hplaced⟩ := bind_eq_ok.mp h
  cases hplaced
  have hunfold : BranchSet.ofLevels? (levels ++ [current]) = some t := follows.tree ▸ tree
  have hbefore : ((levels.flatten ++ current).flatMap ListedSet.ids).Nodup := by
    rw [List.flatMap_append] at distinct
    exact (List.nodup_append.mp distinct).1
  have hdistinct := BranchSet.distinct_ofLevels? (flatten_concat levels current ▸ hbefore) hunfold
  have havailable := follows.available t tree
  have hclosed : ∀ way ∈ standingWays chosen, way ∈ t.leafWays ∧ EndsIn levels.flatten way :=
    fun way hway => (havailable way).mp (targets_subset hchosen (mem_standingWays.mp hway))
  have hleaves : ∀ way ∈ standingWays chosen, way ∈ t.leafWays :=
    fun way hway => (hclosed way hway).1
  have hput := BranchSet.foldl_put s.leafSet hdistinct (standingWays chosen) hleaves
  have htree := ofLevels?_place distinct
  simp only [hunfold, extend_puts hunfold havailable hchosen, ← hput] at htree
  have hstay := mem_available_put (s := s) (standingWays chosen) tree hdistinct
    fun way hway => ((havailable way).mp hway).1
  refine ⟨htree.symm, ?available, ?fresh, by intro h; cases h⟩
  case available =>
    intro t' ht' way
    cases ht'
    rw [mem_available rfl, hput, hstay, havailable, mem_leafWays_put_closed distinct hleaves]
  case fresh =>
    intro t' ht' way
    cases ht'
    rw [hput, mem_leafWays_put_current hunfold distinct hclosed, List.mem_append,
      follows.fresh t tree, mem_brought]

theorem place_follows {g g' : Growth ω} (follows : Follows levels current g)
    (distinct : ((levels.flatten ++ current ++ [s]).flatMap ListedSet.ids).Nodup)
    (h : g.place s = .ok g') : Follows levels (current ++ [s]) g' := by
  cases tree : g.tree with
  | none => exact place_follows_root follows distinct tree h
  | some t => exact place_follows_tree follows distinct tree h

/-- When a level is closed its leaves are open, and nothing else changes. -/
theorem closeLevel_follows {g : Growth ω} (follows : Follows levels current g)
    (distinct : ((levels.flatten ++ current).flatMap ListedSet.ids).Nodup) :
    Follows (levels ++ [current]) [] g.closeLevel where
  tree := by rw [BranchSet.ofLevels?_append_nil]; exact follows.tree
  available := by
    intro t ht way
    have htree : g.tree = some t := ht
    have hunfold : BranchSet.ofLevels? (levels ++ [current]) = some t := follows.tree ▸ htree
    have hflat := flatten_concat levels current
    have hdistinct := BranchSet.distinct_ofLevels? (hflat ▸ distinct) hunfold
    have hmem : Leaf.ofWay way ∈ g.available ++ g.fresh ↔
        way ∈ t.leafWays ∧ EndsIn (levels ++ [current]).flatten way := by
      rw [List.mem_append, follows.available t htree, follows.fresh t htree, hflat, endsIn_append,
        and_or_left]
    rw [mem_available ht]
    change Leaf.ofWay way ∈ g.available ++ g.fresh ∧ _ ↔ _
    rw [hmem]
    exact ⟨fun h => h.1, fun h => ⟨h, BranchSet.at?_of_leafWay hdistinct h.1⟩⟩
  fresh := by
    intro t _ way
    simp [closeLevel, EndsIn]
  rootless := by
    intro h
    have htree : g.tree = none := h
    have hfresh := (follows.rootless htree).2
    simp [closeLevel, available, htree, hfresh]

end Place

end Growth

end SeismicTree

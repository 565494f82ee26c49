import SeismicTree.Proofs.TreeReading

/-!
# The open leaves are the leaves of the tree

The reader keeps the open leaves in a list of its own and never looks for them in the tree. If no
branch set names a leaf twice then the list holds every leaf of the tree once, and nothing else,
whenever a level is closed. A set that names a leaf twice is put behind it twice: the second copy
takes the place of the first one, and the lost leaves of the first copy stay in the list.
-/

namespace SeismicTree

variable {ω : Type}

/-- No leaf is named twice. -/
def Reach.Once : Reach → Prop
  | .everyLeaf => True
  | .named ids => ids.Nodup

/-- The open leaves are the leaves of the tree, each of them once. -/
structure Growth.Exact (g : Growth ω) : Prop where
  rootless : g.tree = none → g.openLeaves = []
  leaves : ∀ t, g.tree = some t → g.openLeaves.Perm (t.leafWays.map Leaf.ofWay)
  nodup : g.openLeaves.Nodup

/-- No leaf is listed twice, and none of them is lost. -/
structure Leaf.Intact (leaves : List Leaf) : Prop where
  nodup : leaves.Nodup
  standing : ∀ leaf ∈ leaves, leaf.lost = false

namespace BranchSet

/-- Leaves are told apart by the ways to them. -/
theorem nodup_leafWays {s : BranchSet ω} (distinct : s.Distinct) : s.leafWays.Nodup := by
  induction s using induction_branches with
  | step d bs ih =>
    obtain ⟨hids, hbelow⟩ := distinct_mk.mp distinct
    rw [leafWays_mk, List.nodup_flatMap]
    constructor
    · intro b hb
      rw [Branch.leafWays_eq]
      refine List.Nodup.map (fun _ _ h => (List.cons.inj h).2) ?_
      cases hs : b.child with
      | none => exact List.nodup_singleton _
      | some t => exact ih b hb t hs (hbelow b hb t hs)
    · refine (List.pairwise_map.mp hids).imp fun {b b'} hne => ?_
      change List.Disjoint b.leafWays b'.leafWays
      rw [Branch.leafWays_eq, Branch.leafWays_eq, List.disjoint_left]
      intro way hway hway'
      obtain ⟨rest, _, rfl⟩ := List.mem_map.mp hway
      obtain ⟨rest', _, heq⟩ := List.mem_map.mp hway'
      exact hne (List.cons.inj heq).1.symm

end BranchSet

namespace Leaf

theorem ofWay_injective : Function.Injective ofWay := fun _ _ h => congrArg way h

namespace Intact

theorem nil : Intact [] := ⟨List.nodup_nil, by simp⟩

theorem map_ofWay {ways : List (List String)} (h : ways.Nodup) : Intact (ways.map ofWay) where
  nodup := h.map ofWay_injective
  standing := by
    intro leaf hleaf
    obtain ⟨way, _, rfl⟩ := List.mem_map.mp hleaf
    rfl

theorem append {leaves later : List Leaf} (first : Intact leaves) (second : Intact later)
    (disjoint : ∀ way, ofWay way ∈ leaves → ofWay way ∉ later) : Intact (leaves ++ later) where
  nodup := by
    refine first.nodup.append second.nodup fun leaf hold hnew => ?_
    obtain ⟨way, lost⟩ := leaf
    cases lost with
    | false => exact disjoint way hold hnew
    | true => cases first.standing _ hold
  standing := fun leaf hleaf =>
    (List.mem_append.mp hleaf).elim (first.standing leaf) (second.standing leaf)

theorem eq_map {leaves : List Leaf} (h : Intact leaves) :
    leaves = (Growth.standingWays leaves).map ofWay := by
  have hall : leaves.filter (!·.lost) = leaves :=
    List.filter_eq_self.mpr fun leaf hleaf => by simp [h.standing leaf hleaf]
  rw [Growth.standingWays, hall, List.map_map]
  symm
  refine (List.map_congr_left fun leaf hleaf => ?_).trans (List.map_id leaves)
  rw [Function.comp_apply, ofWay, ← h.standing leaf hleaf, id]

theorem nodup_standingWays {leaves : List Leaf} (h : Intact leaves) :
    (Growth.standingWays leaves).Nodup :=
  List.Nodup.of_map ofWay (h.eq_map ▸ h.nodup)

end Intact

end Leaf

namespace Growth

theorem intact_available {g : Growth ω} (h : Leaf.Intact g.openLeaves) :
    Leaf.Intact g.available := by
  unfold available
  split
  · exact ⟨h.nodup.filter _, fun leaf hleaf => h.standing leaf (List.mem_filter.mp hleaf).1⟩
  · exact Leaf.Intact.nil

/-- A leaf is named as a target once if the leaves are distinct and no name is repeated. -/
theorem nodup_targets {leaves chosen : List Leaf} {reach : Reach}
    (h : targets leaves reach = .ok chosen) (distinct : leaves.Nodup) (once : reach.Once) :
    chosen.Nodup := by
  cases reach with
  | everyLeaf =>
    rw [targets] at h
    split at h
    · cases h
    · cases h
      exact distinct
  | named names =>
    induction names generalizing chosen with
    | nil =>
      cases h
      exact List.nodup_nil
    | cons name names ih =>
      obtain ⟨hnew, hnames⟩ := List.nodup_cons.mp once
      obtain ⟨rest, hrest, rfl, _⟩ := targets_named_cons h
      refine (distinct.filter _).append (ih hrest hnames) fun leaf hleaf hlater => ?_
      have hlast : leaf.way.getLast? = some name := by simpa using (List.mem_filter.mp hleaf).2
      have hcovers := ((mem_targets hrest hlast).mp hlater).2
      exact hnew (by simpa [Reach.covers] using hcovers)

section Place
variable {levels : List (List (ListedSet ω))} {current : List (ListedSet ω)} {s : ListedSet ω}

theorem nodup_waysBehind (distinct : s.ids.Nodup) (stem : List String) :
    (waysBehind stem s).Nodup := by
  have hways : waysBehind stem s = s.ids.map fun id => stem ++ [id] := by
    simp [waysBehind, ListedSet.ids, List.map_map]
  rw [hways]
  refine distinct.map fun id id' h => ?_
  simpa using h

/-- The leaves that a set brings behind different leaves are different. -/
theorem nodup_flatMap_waysBehind {ways : List (List String)} (distinct : s.ids.Nodup)
    (once : ways.Nodup) : (ways.flatMap (waysBehind · s)).Nodup := by
  rw [List.nodup_flatMap]
  refine ⟨fun way _ => nodup_waysBehind distinct way, once.imp fun {way way'} hne => ?_⟩
  change List.Disjoint (waysBehind way s) (waysBehind way' s)
  rw [List.disjoint_left]
  intro leaf hleaf hleaf'
  obtain ⟨id, _, rfl⟩ := mem_waysBehind.mp hleaf
  obtain ⟨id', _, heq⟩ := mem_waysBehind.mp hleaf'
  exact hne (List.append_inj' heq rfl).1

/-- No copy is replaced if a set goes behind distinct leaves. -/
theorem brought_of_intact {leaves : List Leaf} (h : Leaf.Intact leaves) :
    brought s leaves = ((standingWays leaves).flatMap (waysBehind · s)).map Leaf.ofWay := by
  induction leaves with
  | nil => rfl
  | cons leaf later ih =>
    obtain ⟨hnew, hnodup⟩ := List.nodup_cons.mp h.nodup
    obtain ⟨hfirst, hstanding⟩ := List.forall_mem_cons.mp h.standing
    have hways : standingWays (leaf :: later) = leaf.way :: standingWays later := by
      simp [standingWays, hfirst]
    have hstays : (leaf.lost || later.contains leaf) = false := by simp [hfirst, hnew]
    rw [brought, ih ⟨hnodup, hstanding⟩, hways, List.flatMap_cons, List.map_append, hstays]
    rfl

/-- A set that names no leaf twice brings new leaves, and each of them once. -/
theorem place_once {g g' : Growth ω} (follows : Follows levels current g)
    (distinct : ((levels.flatten ++ current ++ [s]).flatMap ListedSet.ids).Nodup)
    (openOnce : Leaf.Intact g.openLeaves) (freshOnce : Leaf.Intact g.fresh)
    (once : s.reach.Once) (h : g.place s = .ok g') :
    Leaf.Intact g'.openLeaves ∧ Leaf.Intact g'.fresh := by
  have hids : s.ids.Nodup := (List.nodup_flatMap.mp distinct).1 s (by simp)
  cases tree : g.tree with
  | none =>
    obtain ⟨_, hfresh⟩ := follows.rootless tree
    simp only [place, tree, hfresh, List.nil_append] at h
    cases h
    exact ⟨openOnce, .map_ofWay (nodup_waysBehind hids [])⟩
  | some t =>
    simp only [place, tree] at h
    obtain ⟨chosen, hchosen, hplaced⟩ := bind_eq_ok.mp h
    cases hplaced
    have havailable := intact_available openOnce
    have hintact : Leaf.Intact chosen :=
      ⟨nodup_targets hchosen havailable.nodup once,
        fun leaf hleaf => havailable.standing leaf (targets_subset hchosen hleaf)⟩
    have hbrought : Leaf.Intact (brought s chosen) := by
      rw [brought_of_intact hintact]
      exact .map_ofWay (nodup_flatMap_waysBehind hids hintact.nodup_standingWays)
    refine ⟨openOnce, freshOnce.append hbrought fun way hold hnew => ?_⟩
    have hends := ((follows.fresh t tree way).mp hold).2
    exact endsIn_disjoint distinct (endsIn_append.mpr (Or.inr hends))
      (endsIn_waysBehind (standingWays chosen) (mem_brought.mp hnew))

/-- When a level is closed, no leaf is open that has a set behind it. -/
theorem available_closeLevel {g : Growth ω} (follows : Follows levels current g)
    (distinct : ((levels.flatten ++ current).flatMap ListedSet.ids).Nodup)
    (openOnce : Leaf.Intact g.openLeaves) (freshOnce : Leaf.Intact g.fresh) :
    g.closeLevel.available = g.closeLevel.openLeaves := by
  cases tree : g.tree with
  | none =>
    obtain ⟨_, hfresh⟩ := follows.rootless tree
    simp [closeLevel, available, tree, hfresh]
  | some t =>
    have hunfold : BranchSet.ofLevels? (levels ++ [current]) = some t := follows.tree ▸ tree
    have hdistinct :=
      BranchSet.distinct_ofLevels? (flatten_concat levels current ▸ distinct) hunfold
    have hclosed : g.closeLevel.tree = some t := tree
    rw [available, hclosed]
    refine List.filter_eq_self.mpr fun leaf hopen => ?_
    obtain ⟨way, lost⟩ := leaf
    have hleaf : way ∈ t.leafWays := by
      rcases List.mem_append.mp hopen with hold | hnew
      · cases (intact_available openOnce).standing _ hold
        exact ((follows.available t tree way).mp hold).1
      · cases freshOnce.standing _ hnew
        exact ((follows.fresh t tree way).mp hnew).1
    simp [BranchSet.at?_of_leafWay hdistinct hleaf]

theorem closeLevel_once {g : Growth ω} (follows : Follows levels current g)
    (distinct : ((levels.flatten ++ current).flatMap ListedSet.ids).Nodup)
    (openOnce : Leaf.Intact g.openLeaves) (freshOnce : Leaf.Intact g.fresh) :
    Leaf.Intact g.closeLevel.openLeaves := by
  refine (intact_available openOnce).append freshOnce fun way hold hnew => ?_
  cases tree : g.tree with
  | none =>
    rw [(follows.rootless tree).2] at hnew
    cases hnew
  | some t =>
    rw [List.flatMap_append] at distinct
    have hends := ((follows.available t tree way).mp hold).2
    refine endsIn_disjoint ?_ hends ((follows.fresh t tree way).mp hnew).2
    rwa [List.flatMap_append]

end Place

/-- Between levels the open leaves are exact if none of them is counted twice and none has a set
behind it. -/
theorem exact_of_follows {levels : List (List (ListedSet ω))} {g : Growth ω}
    (follows : Follows levels [] g) (distinct : (levels.flatten.flatMap ListedSet.ids).Nodup)
    (openOnce : Leaf.Intact g.openLeaves) (settled : g.available = g.openLeaves) : g.Exact where
  rootless := fun tree => (follows.rootless tree).1
  leaves := by
    intro t tree
    have hunfold : BranchSet.ofLevels? levels = some t := by
      rw [← BranchSet.ofLevels?_append_nil, ← follows.tree, tree]
    have hnodup := BranchSet.nodup_leafWays (BranchSet.distinct_ofLevels? distinct hunfold)
    have hleaves : (standingWays g.openLeaves).Perm t.leafWays := by
      refine (List.perm_ext_iff_of_nodup openOnce.nodup_standingWays hnodup).mpr fun way => ?_
      rw [mem_standingWays, ← settled, follows.available t tree way]
      exact ⟨fun h => h.1, fun h => ⟨h, BranchSet.leafWay_endsIn hunfold h⟩⟩
    rw [openOnce.eq_map]
    exact hleaves.map Leaf.ofWay
  nodup := openOnce.nodup

end Growth

namespace TreeReading

variable {file : String}

/-- What has been read, and that no leaf is lost or counted twice on the way. -/
structure Progress.Counted (levels : List (List (ListedSet Binary64)))
    (current : List (ListedSet Binary64)) (p : Progress) : Prop where
  follows : p.Follows levels current
  openOnce : Leaf.Intact p.growth.openLeaves
  freshOnce : Leaf.Intact p.growth.fresh
  settled : current = [] → p.growth.available = p.growth.openLeaves

theorem once_reachOf {e : Element}
    (h : (Text.tokens (e.attributeText "applyToBranches")).Nodup) : (reachOf e).Once := by
  rw [reachOf]
  cases hnames : Text.tokens (e.attributeText "applyToBranches") with
  | nil => trivial
  | cons name names =>
    rw [hnames] at h
    exact h

theorem counted_kept :
    Kept file (fun e => (Text.tokens (e.attributeText "applyToBranches")).Nodup)
      Progress.Counted where
  set := by
    intro levels current p p' e names before h
    obtain ⟨s, hlisted, follows⟩ := readSet_follows before.follows h
    obtain ⟨s', q, growth, hconstruct, hplace, rfl, _⟩ := readSet_eq_ok h
    obtain ⟨hlisted', rfl, _⟩ := construct_eq_ok hconstruct
    cases Except.ok.inj (hlisted.symm.trans hlisted')
    have hdistinct : ((levels.flatten ++ current ++ [s]).flatMap ListedSet.ids).Nodup := by
      have hafter := follows.distinct.branches
      rwa [flatten_concat, ← List.append_assoc] at hafter
    have honce : s.reach.Once := reach_listed hlisted ▸ once_reachOf names
    obtain ⟨hopen, hfresh⟩ := Growth.place_once before.follows.growth hdistinct before.openOnce
      before.freshOnce honce hplace
    exact ⟨s, hlisted, follows, hopen, hfresh, fun hnil => by simp at hnil⟩
  close := by
    intro levels current p before
    have hdistinct : ((levels.flatten ++ current).flatMap ListedSet.ids).Nodup := by
      rw [← flatten_concat]
      exact before.follows.distinct.branches
    have follows := before.follows.growth
    exact ⟨closeLevel_follows before.follows,
      Growth.closeLevel_once follows hdistinct before.openOnce before.freshOnce,
      Leaf.Intact.nil, fun _ =>
        Growth.available_closeLevel follows hdistinct before.openOnce before.freshOnce⟩

theorem counted_start : Progress.start.Counted [] [] where
  follows := follows_start
  openOnce := Leaf.Intact.nil
  freshOnce := Leaf.Intact.nil
  settled := fun _ => rfl

theorem counted_entries {entries : List Element} {p : Progress}
    (names : ∀ entry ∈ entries, ∀ e ∈ entrySets entry,
      (Text.tokens (e.attributeText "applyToBranches")).Nodup)
    (h : (entries.foldlM (readEntry file) Progress.start).result = .ok p) :
    ∃ levels, p.Counted levels [] := by
  rw [Logged.result_foldlM] at h
  obtain ⟨levels, _, hcounted⟩ := counted_kept.readEntries names counted_start h
  exact ⟨_, hcounted⟩

/-- After each of the levels that a description starts with the open leaves are exact, provided that
no branch set names a branch twice. It is not needed that what follows is accepted. -/
theorem openLeaves_exact {entries : List Element} {p : Progress}
    (names : ∀ entry ∈ entries, ∀ e ∈ entrySets entry,
      (Text.tokens (e.attributeText "applyToBranches")).Nodup)
    (h : (entries.foldlM (readEntry file) Progress.start).result = .ok p) : p.growth.Exact := by
  obtain ⟨levels, hcounted⟩ := counted_entries names h
  have hdistinct := (DistinctLevels.append_nil_iff.mp hcounted.follows.distinct).branches
  exact Growth.exact_of_follows hcounted.follows.growth hdistinct hcounted.openOnce
    (hcounted.settled rfl)

def twoSets (names : String) : List Element :=
  [branchSetNode [("branchSetID", "models"), ("uncertaintyType", "bGRRelative")]
      "0.5" "0.1" ["b1", "b2"],
    branchSetNode [("branchSetID", "bounds"), ("uncertaintyType", "maxMagGRRelative"),
      ("applyToBranches", names)]
      "0.5" "0.1" ["c1", "c2"]].filterMap (Node.element? "tree.xml")

theorem openLeaves_exact_reversed :
    ∃ p, ((twoSets "b2 b1").foldlM (readEntry "tree.xml") Progress.start).result = .ok p ∧
      p.growth.openLeaves =
        [["b2", "c1"], ["b2", "c2"], ["b1", "c1"], ["b1", "c2"]].map Leaf.ofWay ∧
      p.growth.Exact := by
  have hopen :
      ((twoSets "b2 b1").foldlM (readEntry "tree.xml") Progress.start).result.toOption.map
        (·.growth.openLeaves) =
          some ([["b2", "c1"], ["b2", "c2"], ["b1", "c1"], ["b1", "c2"]].map Leaf.ofWay) := by
    decide +kernel
  obtain ⟨p, hread, hleaves⟩ := exists_of_toOption_map hopen
  exact ⟨p, hread, hleaves, openLeaves_exact (by decide +kernel) hread⟩

/-- A set that names a branch twice leaves five open leaves in a tree of three leaves. -/
theorem not_exact_of_namedTwice :
    ∃ p, ((twoSets "b1 b1").foldlM (readEntry "tree.xml") Progress.start).result = .ok p ∧
      ¬ p.growth.Exact := by
  have hcounts :
      ((twoSets "b1 b1").foldlM (readEntry "tree.xml") Progress.start).result.toOption.map
        (fun p => (p.growth.openLeaves.length, p.growth.tree.map (·.leafWays.length))) =
          some (5, some 3) := by decide +kernel
  obtain ⟨p, hread, hlengths⟩ := exists_of_toOption_map hcounts
  obtain ⟨hopen, htree⟩ := Prod.mk.inj hlengths
  obtain ⟨t, ht, hleaves⟩ := Option.map_eq_some_iff.mp htree
  refine ⟨p, hread, fun hexact => ?_⟩
  have hlength := (hexact.leaves t ht).length_eq
  rw [List.length_map] at hlength
  omega

end TreeReading

end SeismicTree

import SeismicTree.Proofs.OpenLeaves
import SeismicTree.Proofs.WellFormed

/-!
# Trees that were read

What an accepted description says of its tree holds as long as the reading keeps to the tree: no
lost leaf is open when another entry is read. What is put behind a lost leaf, and even the look
whether something is behind it, is outside of the tree. The reading keeps to the tree if and only if
no set names a branch twice in an entry that another one follows. A repeated name in the last entry
is harmless.
-/

namespace SeismicTree

variable {ω : Type}

namespace Growth

/-- A name that comes twice chooses its leaves twice. -/
theorem targets_repeated {leaves chosen : List Leaf} {names : List String}
    (h : targets leaves (.named names) = .ok chosen) (repeated : ¬ names.Nodup) :
    ¬ chosen.Nodup := by
  induction names generalizing chosen with
  | nil => exact absurd List.nodup_nil repeated
  | cons name names ih =>
    obtain ⟨rest, hrest, rfl, hsome⟩ := targets_named_cons h
    by_cases hagain : name ∈ names
    · obtain ⟨leaf, hleaf⟩ := List.exists_mem_of_ne_nil _ hsome
      obtain ⟨hopen, hlast⟩ := List.mem_filter.mp hleaf
      have hlater : leaf ∈ rest :=
        (mem_targets hrest (beq_iff_eq.mp hlast)).mpr ⟨hopen, by simpa [Reach.covers] using hagain⟩
      exact fun hnodup => List.disjoint_of_nodup_append hnodup hleaf hlater
    · have hrepeated : ¬ names.Nodup :=
        fun hnodup => repeated (List.nodup_cons.mpr ⟨hagain, hnodup⟩)
      exact fun hnodup => ih hrest hrepeated (List.nodup_append.mp hnodup).2.1

/-- A leaf that is met twice loses the first copy that it receives. -/
theorem exists_lost_brought {s : ListedSet ω} {leaves : List Leaf} (choices : s.choices ≠ [])
    (repeated : ¬ leaves.Nodup) : ∃ leaf ∈ brought s leaves, leaf.lost = true := by
  induction leaves with
  | nil => exact absurd List.nodup_nil repeated
  | cons leaf later ih =>
    rw [brought]
    by_cases hagain : leaf ∈ later
    · obtain ⟨c, hc⟩ := List.exists_mem_of_ne_nil _ choices
      refine ⟨⟨leaf.way ++ [c.id], leaf.lost || later.contains leaf⟩, ?_, by simp [hagain]⟩
      exact List.mem_append_left _ (List.mem_map_of_mem (List.mem_map_of_mem hc))
    · have hrepeated : ¬ later.Nodup :=
        fun hnodup => repeated (List.nodup_cons.mpr ⟨hagain, hnodup⟩)
      obtain ⟨lost, hmem, hlost⟩ := ih hrepeated
      exact ⟨lost, List.mem_append_right _ hmem, hlost⟩

def Loses (g : Growth ω) : Prop := ∃ leaf ∈ g.fresh, leaf.lost = true

variable {g g' : Growth ω} {s : ListedSet ω}

theorem fresh_place (h : g.place s = .ok g') : g.fresh ⊆ g'.fresh := by
  rw [place] at h
  split at h
  · cases h
    exact List.subset_append_left _ _
  · obtain ⟨chosen, _, hplaced⟩ := bind_eq_ok.mp h
    cases hplaced
    exact List.subset_append_left _ _

theorem Loses.place (loses : g.Loses) (h : g.place s = .ok g') : g'.Loses :=
  loses.imp fun _ hleaf => ⟨fresh_place h hleaf.1, hleaf.2⟩

theorem Loses.closeLevel (loses : g.Loses) : ∃ leaf ∈ g.closeLevel.openLeaves, leaf.lost = true :=
  loses.imp fun _ hleaf => ⟨List.mem_append_right _ hleaf.1, hleaf.2⟩

/-- Behind the root, a set that names a branch twice loses leaves. -/
theorem loses_of_namedTwice {t : BranchSet ω} {names : List String} (tree : g.tree = some t)
    (choices : s.choices ≠ []) (reach : s.reach = .named names) (repeated : ¬ names.Nodup)
    (h : g.place s = .ok g') : g'.Loses := by
  simp only [Growth.place, tree, reach] at h
  obtain ⟨chosen, hchosen, hplaced⟩ := bind_eq_ok.mp h
  cases hplaced
  obtain ⟨leaf, hleaf, hlost⟩ := exists_lost_brought choices (targets_repeated hchosen repeated)
  exact ⟨leaf, List.mem_append_right _ hleaf, hlost⟩

end Growth

namespace TreeReading

variable {file : String} {e : Element}

/-- No set names a branch twice in an entry that another one follows. -/
def NamesOnce (e : Element) : Prop :=
  ∀ entry ∈ e.elements.dropLast, ∀ x ∈ entrySets entry,
    (Text.tokens (x.attributeText "applyToBranches")).Nodup

instance (e : Element) : Decidable (NamesOnce e) :=
  inferInstanceAs (Decidable (∀ entry ∈ e.elements.dropLast, ∀ x ∈ entrySets entry,
    (Text.tokens (x.attributeText "applyToBranches")).Nodup))

/-- Whenever an entry is read, all leaves that are open by then are part of the tree. -/
def KeepsToTree (file : String) (e : Element) : Prop :=
  ∀ before entry after p, e.elements = before ++ entry :: after →
    (before.foldlM (readEntry file) Progress.start).result = .ok p →
      ∀ leaf ∈ p.growth.openLeaves, leaf.lost = false

section Losing
variable {p p' : Progress}

theorem readSet_loses (repeated : ¬ (Text.tokens (e.attributeText "applyToBranches")).Nodup)
    (h : (readSet file p e).result = .ok p') : p'.growth.Loses := by
  obtain ⟨s, q, growth, hconstruct, hplace, rfl, hroot⟩ := readSet_eq_ok h
  have hchoices := (construct_admits hconstruct).nonempty
  obtain ⟨hlisted, rfl, _⟩ := construct_eq_ok hconstruct
  have hreach : s.reach = .named (Text.tokens (e.attributeText "applyToBranches")) := by
    rw [reach_listed hlisted, reachOf]
    cases hnames : Text.tokens (e.attributeText "applyToBranches") with
    | nil => exact absurd (hnames ▸ List.nodup_nil) repeated
    | cons name names => rfl
  -- The root set has no such attribute, so that it names nothing.
  cases htree : p.growth.tree with
  | none =>
    have hempty : e.attributeText "applyToBranches" = "" := e.attributeText_of_absent (hroot htree)
    have hnone : Text.tokens "" = [] := by simp [Text.tokens, Text.tokenChars]
    exact absurd (hempty ▸ hnone ▸ List.nodup_nil) repeated
  | some t => exact Growth.loses_of_namedTwice htree hchoices hreach repeated hplace

theorem loses_readSet (loses : p.growth.Loses) (h : (readSet file p e).result = .ok p') :
    p'.growth.Loses := by
  obtain ⟨s, q, growth, hconstruct, hplace, rfl, _⟩ := readSet_eq_ok h
  obtain ⟨_, rfl, _⟩ := construct_eq_ok hconstruct
  exact loses.place hplace

theorem loses_readSets {es : List Element} (loses : p.growth.Loses)
    (h : es.foldlM (fun p e => (readSet file p e).result) p = .ok p') : p'.growth.Loses := by
  induction es generalizing p with
  | nil =>
    cases h
    exact loses
  | cons e es ih =>
    rw [List.foldlM_cons] at h
    obtain ⟨q, hread, h⟩ := bind_eq_ok.mp h
    exact ih (loses_readSet loses hread) h

/-- A level with a set that names a branch twice leaves a lost leaf open. -/
theorem readLevel_loses {es : List Element} {x : Element} (mem : x ∈ es)
    (repeated : ¬ (Text.tokens (x.attributeText "applyToBranches")).Nodup)
    (h : (readLevel file p es).result = .ok p') :
    ∃ leaf ∈ p'.growth.openLeaves, leaf.lost = true := by
  simp only [readLevel, Logged.result_bind, Logged.result_foldlM] at h
  obtain ⟨q, hread, h⟩ := bind_eq_ok.mp h
  cases h
  obtain ⟨earlier, later, rfl⟩ := List.append_of_mem mem
  obtain ⟨_, _, _, hset, hlater⟩ := foldlM_append_cons_eq_ok.mp hread
  exact (loses_readSets (readSet_loses repeated hset) hlater).closeLevel

theorem readEntry_loses {x : Element} (mem : x ∈ entrySets e)
    (repeated : ¬ (Text.tokens (x.attributeText "applyToBranches")).Nodup)
    (h : (readEntry file p e).result = .ok p') :
    ∃ leaf ∈ p'.growth.openLeaves, leaf.lost = true := by
  rw [readEntry] at h
  rw [entrySets] at mem
  split at h
  · rename_i hlevel
    rw [if_pos hlevel] at mem
    exact readLevel_loses mem repeated h
  · rename_i hlevel
    rw [if_neg hlevel] at mem
    split at h
    · exact readLevel_loses mem repeated h
    · cases h

end Losing

theorem keepsToTree_of_namesOnce (once : NamesOnce e) : KeepsToTree file e := by
  intro before entry after p split h
  have hbefore : ∀ x ∈ before, x ∈ e.elements.dropLast := by
    intro x hx
    rw [split, List.dropLast_append_cons]
    exact List.mem_append_left _ hx
  obtain ⟨levels, hcounted⟩ := counted_entries (fun x hx => once x (hbefore x hx)) h
  exact hcounted.openOnce.standing

/-- The reading of an accepted description keeps to the tree exactly if no name comes twice in front
of its last entry. -/
theorem keepsToTree_iff {p : Progress} (h : (readLevels file e).result = .ok p) :
    KeepsToTree file e ↔ NamesOnce e := by
  refine ⟨fun keeps entry hentry x hx => ?_, keepsToTree_of_namesOnce⟩
  by_contra repeated
  obtain ⟨before, after, hsplit⟩ := List.append_of_mem hentry
  obtain ⟨next, rest, helements⟩ : ∃ next rest, e.elements = before ++ [entry] ++ next :: rest := by
    have hne : e.elements ≠ [] := List.ne_nil_of_mem (List.dropLast_subset _ hentry)
    have hlast := List.dropLast_append_getLast hne
    rw [hsplit] at hlast
    cases after with
    | nil => exact ⟨e.elements.getLast hne, [], hlast.symm⟩
    | cons next after =>
      exact ⟨next, after ++ [e.elements.getLast hne], by simpa using hlast.symm⟩
  rw [readLevels, Logged.result_foldlM, helements] at h
  obtain ⟨q, _, hbefore, _, _⟩ := foldlM_append_cons_eq_ok.mp h
  obtain ⟨q₁, q₂, _, hread, hq⟩ := foldlM_append_cons_eq_ok.mp hbefore
  cases hq
  obtain ⟨leaf, hleaf, hlost⟩ := readEntry_loses hx repeated hread
  rw [← Logged.result_foldlM] at hbefore
  have hkept := keeps _ next rest q helements hbefore leaf hleaf
  rw [hlost] at hkept
  cases hkept

theorem namesOnce_leftOpen {root e : Element}
    (opened : (leftOpen.openExisting .missingInput "tree.xml").result = .ok root)
    (found : treeElement "tree.xml" root = .ok e) : NamesOnce e := by
  cases opened
  cases found
  decide +kernel

theorem read_leftOpen :
    ∃ tree, (LogicTree.read leftOpen "tree.xml").result = .ok tree ∧
      tree.leafWays = [["b1", "c1", "d1"], ["b1", "c2", "d1"], ["b2", "d1"]] := by
  have hways : (LogicTree.read leftOpen "tree.xml").result.toOption.map (·.leafWays) =
      some [["b1", "c1", "d1"], ["b1", "c2", "d1"], ["b2", "d1"]] := by decide +kernel
  exact exists_of_toOption_map hways

/-- Three sets, each of which is a level. The second one names branches of the first. -/
def threeSets (names : String) : Files where
  folder := ""
  entries := [("tree.xml", {
    root := some <| .element "logicTree" 1 []
      [branchSetNode [("branchSetID", "models"), ("uncertaintyType", "bGRRelative")]
        "0.5" "0.1" ["b1", "b2"],
      branchSetNode [("branchSetID", "bounds"), ("uncertaintyType", "maxMagGRRelative"),
          ("applyToBranches", names)]
        "0.25" "0.1" ["c1", "c2", "c3", "c4"],
      branchSetNode [("branchSetID", "slopes"), ("uncertaintyType", "bGRRelative")]
        "1" "0.1" ["d1"]]
    named := true
    trouble := none
    messages := [] })]

end TreeReading

namespace LogicTree

open TreeReading

/-- If the reading keeps to the tree, then the tree is the unfolding of the levels that its document
lists. -/
theorem read_unfolds {files : Files} {path : String} {tree : LogicTree}
    (h : (LogicTree.read files path).result = .ok tree) :
    ∃ root e levels, (files.openExisting .missingInput path).result = .ok root ∧
      treeElement path root = .ok e ∧ listedLevels path e = .ok levels ∧
      (KeepsToTree path e ↔ NamesOnce e) ∧
      (NamesOnce e → BranchSet.ofLevels? levels = some tree ∧ tree.Unfolds levels) ∧
      ∀ x s, listed path x = .ok s → ∀ id, s.reach.covers id = true ↔
        Text.tokens (x.attributeText "applyToBranches") = [] ∨
          id ∈ Text.tokens (x.attributeText "applyToBranches") := by
  obtain ⟨root, e, p, hroot, he, hp, htree⟩ := read_eq_ok h
  obtain ⟨levels, hlevels, hfollows⟩ := readLevels_follows hp
  have hunfold : BranchSet.ofLevels? levels = some tree := by
    rw [← BranchSet.ofLevels?_append_nil, ← hfollows.growth.tree, htree]
  have hdistinct := DistinctLevels.append_nil_iff.mp hfollows.distinct
  refine ⟨root, e, levels, hroot, he, hlevels, keepsToTree_iff hp, ?_, ?_⟩
  · exact fun _ => ⟨hunfold, BranchSet.ofLevels?_unfolds hdistinct hunfold⟩
  · exact fun x s hs id => covers_listed hs id

theorem read_unfolds_leftOpen :
    ∃ tree e levels, (LogicTree.read leftOpen "tree.xml").result = .ok tree ∧
      tree.leafWays = [["b1", "c1", "d1"], ["b1", "c2", "d1"], ["b2", "d1"]] ∧
      listedLevels "tree.xml" e = .ok levels ∧ NamesOnce e ∧ tree.Unfolds levels := by
  obtain ⟨tree, hread, hleaves⟩ := read_leftOpen
  obtain ⟨root, e, levels, hroot, he, hlevels, _, hunfolds, _⟩ := read_unfolds hread
  have honce := namesOnce_leftOpen hroot he
  exact ⟨tree, e, levels, hread, hleaves, hlevels, honce, (hunfolds honce).2⟩

/-- The third set is meant for every leaf, and one of those that are open is lost: it is of the
first copy of the second set, which the other copy has replaced. -/
theorem putBehindLost_namedTwice :
    ∃ tree root e p, (LogicTree.read (threeSets "b1 b1") "tree.xml").result = .ok tree ∧
      ((threeSets "b1 b1").openExisting .missingInput "tree.xml").result = .ok root ∧
      treeElement "tree.xml" root = .ok e ∧ (e.elements.drop 2).map reachOf = [.everyLeaf] ∧
      ((e.elements.take 2).foldlM (readEntry "tree.xml") Progress.start).result = .ok p ∧
      ⟨["b1", "c1"], true⟩ ∈ p.growth.available ∧ ¬ KeepsToTree "tree.xml" e := by
  have haccepted : (LogicTree.read (threeSets "b1 b1") "tree.xml").result.toOption.map
      (·.leafWays.length) = some 5 := by decide +kernel
  obtain ⟨tree, hread, _⟩ := exists_of_toOption_map haccepted
  obtain ⟨root, e, q, hroot, he, hq, _⟩ := read_eq_ok hread
  have hkeeps := keepsToTree_iff hq
  have hthird : (e.elements.drop 2).map reachOf = [.everyLeaf] ∧ ¬ NamesOnce e := by
    cases hroot
    cases he
    decide +kernel
  have hopen :
      ((e.elements.take 2).foldlM (readEntry "tree.xml") Progress.start).result.toOption.map
        (·.growth.available.contains ⟨["b1", "c1"], true⟩) = some true := by
    cases hroot
    cases he
    decide +kernel
  obtain ⟨p, hp, hlost⟩ := exists_of_toOption_map hopen
  exact ⟨tree, root, e, p, hread, hroot, he, hthird.1, hp, List.contains_iff_mem.mp hlost,
    fun h => hthird.2 (hkeeps.mp h)⟩

/-- If the reading keeps to the tree, then the tree is well formed. -/
theorem read_wellFormed {files : Files} {path : String} {tree : LogicTree}
    (h : (LogicTree.read files path).result = .ok tree) :
    ∃ root e, (files.openExisting .missingInput path).result = .ok root ∧
      treeElement path root = .ok e ∧ (KeepsToTree path e ↔ NamesOnce e) ∧
      (NamesOnce e → tree.WellFormed) := by
  obtain ⟨root, e, p, hroot, he, hp, _⟩ := read_eq_ok h
  obtain ⟨_, hdistinct, hadmits, hunfold⟩ := exists_checked h
  refine ⟨root, e, hroot, he, keepsToTree_iff hp, fun _ => ?_⟩
  exact wellFormed_ofLevels? hdistinct hadmits hunfold

theorem read_wellFormed_leftOpen :
    ∃ tree e, (LogicTree.read leftOpen "tree.xml").result = .ok tree ∧
      tree.leafWays = [["b1", "c1", "d1"], ["b1", "c2", "d1"], ["b2", "d1"]] ∧
      NamesOnce e ∧ tree.WellFormed := by
  obtain ⟨tree, hread, hleaves⟩ := read_leftOpen
  obtain ⟨root, e, hroot, he, _, hwellFormed⟩ := read_wellFormed hread
  have honce := namesOnce_leftOpen hroot he
  exact ⟨tree, e, hread, hleaves, honce, hwellFormed honce⟩

/-- A set that comes back to a branch leaves four lost leaves, and the third set goes behind each of
them: the log tells of twelve leaves, and the levels unfold to a tree of eight. -/
theorem leavesOutside_namedAgain :
    ∃ tree root e, (LogicTree.read (threeSets "b1 b2 b1") "tree.xml").result = .ok tree ∧
      tree.leafWays.length = 8 ∧
      ⟨.debug2, "The logic tree has 12 leaves", false⟩ ∈
        (LogicTree.read (threeSets "b1 b2 b1") "tree.xml").entries ∧
      ((threeSets "b1 b2 b1").openExisting .missingInput "tree.xml").result = .ok root ∧
      treeElement "tree.xml" root = .ok e ∧ ¬ KeepsToTree "tree.xml" e := by
  have haccepted : (LogicTree.read (threeSets "b1 b2 b1") "tree.xml").result.toOption.map
      (·.leafWays.length) = some 8 := by decide +kernel
  obtain ⟨tree, hread, hleaves⟩ := exists_of_toOption_map haccepted
  obtain ⟨root, e, p, hroot, he, hp, _⟩ := read_eq_ok hread
  have hkeeps := keepsToTree_iff hp
  have htwice : ¬ NamesOnce e := by
    cases hroot
    cases he
    decide +kernel
  exact ⟨tree, root, e, hread, hleaves, by decide +kernel, hroot, he, fun h => htwice (hkeeps.mp h)⟩

end LogicTree

end SeismicTree

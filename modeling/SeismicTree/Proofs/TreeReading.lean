import SeismicTree.Tree.Reading
import SeismicTree.Proofs.Growth

/-!
# A tree that was read is the unfolding of its description

The branch set elements of a description are read one by one here, each on its own and without the
identifiers of the others. If a description is accepted then all of its elements can be read so, no
identifier is used twice, and the tree is the unfolding of the sets in the levels that hold them.
Nothing is said about descriptions that are refused.
-/

namespace SeismicTree

namespace TreeReading

/-- The branch set of an element, read on its own. -/
def listed (file : String) (e : Element) : Except Failure (ListedSet Binary64) := do
  let d ← decision file (e.attributeText "branchSetID") e
  let cs ← (e.elementsNamed "logicTreeBranch").mapM (choice file d.uncertainty [])
  return { decision := d, choices := cs, reach := reachOf e }

/-- The branch set elements of an entry: those of a level, or the one that stands for a level. -/
def entrySets (entry : Element) : List Element :=
  if entry.name = "logicTreeBranchingLevel" then entry.elementsNamed "logicTreeBranchSet"
  else [entry]

/-- The levels that a logic tree element lists. -/
def listedLevels (file : String) (e : Element) :
    Except Failure (List (List (ListedSet Binary64))) :=
  (e.elements.map entrySets).mapM (·.mapM (listed file))

variable {file : String} {e : Element}

theorem reach_listed {s : ListedSet Binary64} (h : listed file e = .ok s) :
    s.reach = reachOf e := by
  obtain ⟨d, _, h⟩ := bind_eq_ok.mp h
  obtain ⟨cs, _, h⟩ := bind_eq_ok.mp h
  cases h
  rfl

/-- A set is meant for the branches that its element names, and for all branches if it names
none. -/
theorem covers_listed {s : ListedSet Binary64} (h : listed file e = .ok s) (id : String) :
    s.reach.covers id = true ↔
      Text.tokens (e.attributeText "applyToBranches") = [] ∨
        id ∈ Text.tokens (e.attributeText "applyToBranches") := by
  obtain ⟨d, _, h⟩ := bind_eq_ok.mp h
  obtain ⟨cs, _, h⟩ := bind_eq_ok.mp h
  cases h
  rw [reachOf]
  cases Text.tokens (e.attributeText "applyToBranches") with
  | nil => simp [Reach.covers]
  | cons name names => simp [Reach.covers]

theorem branchSetId_eq_ok {used : List String} {id : String}
    (h : branchSetId file used e = .ok id) : id = e.attributeText "branchSetID" ∧ id ∉ used := by
  simp only [branchSetId, check_eq_ok] at h
  obtain ⟨_, hunused, hid⟩ := h
  cases hid
  exact ⟨rfl, by simpa using hunused⟩

theorem id_decision {id : String} {d : Decision} (h : decision file id e = .ok d) : d.id = id := by
  simp only [decision, check_eq_ok] at h
  obtain ⟨_, h⟩ := h
  cases hflag : e.attributeAs Bool "collapsed" with
  | error trouble =>
    rw [hflag] at h
    cases h
  | ok flag =>
    simp only [hflag, pure_bind] at h
    split at h
    · cases (check_eq_ok.mp h).2
      rfl
    · cases h
      rfl

theorem id_choice {u : Uncertainty} {used : List String} {c : Choice Binary64}
    (h : choice file u used e = .ok c) : c.id = e.attributeText "branchID" := by
  simp only [choice, check_eq_ok] at h
  obtain ⟨_, _, h⟩ := h
  split at h
  · obtain ⟨w, _, h⟩ := bind_eq_ok.mp h
    obtain ⟨value, _, h⟩ := bind_eq_ok.mp h
    cases h
    rfl
  · cases h

/-- The identifiers in use decide whether a choice is accepted, but not what it is. -/
theorem choice_eq_ok_iff {u : Uncertainty} {used : List String} {c : Choice Binary64} :
    choice file u used e = .ok c ↔ choice file u [] e = .ok c ∧ c.id ∉ used := by
  constructor
  · intro h
    have hid := id_choice h
    simp only [choice, check_eq_ok] at h ⊢
    obtain ⟨hname, hunused, h⟩ := h
    refine ⟨⟨hname, by simp, h⟩, ?_⟩
    rw [hid]
    simpa using hunused
  · rintro ⟨h, hunused⟩
    rw [id_choice h] at hunused
    simp only [choice, check_eq_ok] at h ⊢
    obtain ⟨hname, _, h⟩ := h
    exact ⟨hname, by simpa using hunused, h⟩

/-- The choices of a set are read one by one. Their identifiers are new and distinct. -/
theorem choices_eq_ok {u : Uncertainty} {used used' : List String} {es : List Element}
    {cs : List (Choice Binary64)} (h : choices file u used es = .ok (cs, used')) :
    es.mapM (choice file u []) = .ok cs ∧ used' = used ++ cs.map (·.id) ∧
      (cs.map (·.id)).Nodup ∧ ∀ id ∈ cs.map (·.id), id ∉ used := by
  induction es generalizing used cs with
  | nil =>
    cases h
    exact ⟨rfl, (List.append_nil _).symm, List.nodup_nil, by simp⟩
  | cons e es ih =>
    obtain ⟨c, hc, h⟩ := bind_eq_ok.mp h
    obtain ⟨⟨others, used''⟩, hothers, h⟩ := bind_eq_ok.mp h
    cases h
    obtain ⟨hc, hnew⟩ := choice_eq_ok_iff.mp hc
    obtain ⟨hmap, hused, hnodup, hrest⟩ := ih hothers
    refine ⟨mapM_cons_eq_ok.mpr ⟨c, others, hc, hmap, rfl⟩, ?_, ?_, ?_⟩
    · rw [hused, List.map_cons, List.append_assoc, List.singleton_append]
    · refine List.nodup_cons.mpr ⟨fun hmem => hrest c.id hmem ?_, hnodup⟩
      exact List.mem_append_right _ (List.mem_singleton_self _)
    · intro id hid hin
      rcases List.mem_cons.mp hid with rfl | hid
      · exact hnew hin
      · exact hrest id hid (List.mem_append_left _ hin)

/-- A set is read as on its own. Its identifiers are new, and they are remembered. -/
theorem construct_eq_ok {p p' : Progress} {s : ListedSet Binary64}
    (h : (construct file p e).result = .ok (s, p')) :
    listed file e = .ok s ∧
      p' = ⟨p.growth, p.branchIds ++ s.ids, p.branchSetIds ++ [s.decision.id]⟩ ∧
      s.decision.id ∉ p.branchSetIds ∧ s.ids.Nodup ∧ ∀ id ∈ s.ids, id ∉ p.branchIds := by
  simp only [construct, Logged.result_bind, Logged.result_liftM, Logged.result_note_before,
    Logged.result_pure] at h
  obtain ⟨id, hid, h⟩ := bind_eq_ok.mp h
  obtain ⟨d, hd, h⟩ := bind_eq_ok.mp h
  obtain ⟨⟨cs, used⟩, hcs, h⟩ := bind_eq_ok.mp h
  obtain ⟨_, _, h⟩ := bind_eq_ok.mp h
  cases h
  obtain ⟨rfl, hnew⟩ := branchSetId_eq_ok hid
  obtain ⟨hmap, rfl, hnodup, hunused⟩ := choices_eq_ok hcs
  have hname := id_decision hd
  refine ⟨bind_eq_ok.mpr ⟨d, hd, bind_eq_ok.mpr ⟨cs, hmap, rfl⟩⟩, ?_, ?_, hnodup, hunused⟩
  · rw [hname]
    rfl
  · rw [hname]
    exact hnew

/-- What has been read after some closed levels and some sets of the level in progress. -/
structure Progress.Follows (levels : List (List (ListedSet Binary64)))
    (current : List (ListedSet Binary64)) (p : Progress) : Prop where
  growth : p.growth.Follows levels current
  branchIds : p.branchIds = (levels.flatten ++ current).flatMap ListedSet.ids
  branchSetIds : p.branchSetIds = (levels.flatten ++ current).map (·.decision.id)
  distinct : DistinctLevels (levels ++ [current])

theorem follows_start : Progress.start.Follows [] [] where
  growth := Growth.start_follows
  branchIds := rfl
  branchSetIds := rfl
  distinct := ⟨List.nodup_nil, List.nodup_nil⟩

section Steps
variable {levels : List (List (ListedSet Binary64))} {current : List (ListedSet Binary64)}
variable {p p' : Progress}

theorem readSet_eq_ok (h : (readSet file p e).result = .ok p') :
    ∃ s q growth, (construct file p e).result = .ok (s, q) ∧ q.growth.place s = .ok growth ∧
      p' = { q with growth } ∧
      (q.growth.tree = none → e.hasAttribute "applyToBranches" = false) := by
  simp only [readSet, Logged.result_bind] at h
  obtain ⟨⟨s, q⟩, hconstruct, h⟩ := bind_eq_ok.mp h
  obtain ⟨hroot, h⟩ := Logged.check_eq_ok.mp h
  simp only [Logged.result_bind, Logged.result_liftM, Logged.result_note_before,
    Logged.result_pure] at h
  obtain ⟨growth, hplace, h⟩ := bind_eq_ok.mp h
  cases h
  exact ⟨s, q, growth, hconstruct, mapError_eq_ok.mp hplace, rfl, fun htree => by
    simpa [htree] using hroot⟩

theorem readSet_follows (follows : p.Follows levels current)
    (h : (readSet file p e).result = .ok p') :
    ∃ s, listed file e = .ok s ∧ p'.Follows levels (current ++ [s]) := by
  obtain ⟨s, q, growth, hconstruct, hplace, rfl, _⟩ := readSet_eq_ok h
  obtain ⟨hlisted, rfl, hnewSet, hnodup, hnew⟩ := construct_eq_ok hconstruct
  have hflat : (levels ++ [current ++ [s]]).flatten = levels.flatten ++ current ++ [s] := by simp
  have hids : (levels.flatten ++ current ++ [s]).flatMap ListedSet.ids = p.branchIds ++ s.ids := by
    rw [List.flatMap_append, ← follows.branchIds, List.flatMap_singleton]
  have hsetIds : (levels.flatten ++ current ++ [s]).map (·.decision.id)
      = p.branchSetIds ++ [s.decision.id] := by
    rw [List.map_append, ← follows.branchSetIds, List.map_singleton]
  have hbranches : (p.branchIds ++ s.ids).Nodup := by
    have hbefore := follows.distinct.branches
    rw [flatten_concat, ← follows.branchIds] at hbefore
    exact hbefore.append hnodup fun id hin hid => hnew id hid hin
  have hsets : (p.branchSetIds ++ [s.decision.id]).Nodup := by
    have hbefore := follows.distinct.sets
    rw [flatten_concat, ← follows.branchSetIds] at hbefore
    refine hbefore.append (List.nodup_singleton _) fun id hin hid => ?_
    rw [List.mem_singleton.mp hid] at hin
    exact hnewSet hin
  refine ⟨s, hlisted, ?growth, ?branchIds, ?branchSetIds, ?distinct⟩
  case growth => exact Growth.place_follows follows.growth (hids ▸ hbranches) hplace
  case branchIds =>
    rw [← List.append_assoc]
    exact hids.symm
  case branchSetIds =>
    rw [← List.append_assoc]
    exact hsetIds.symm
  case distinct =>
    constructor
    · rw [hflat, hids]
      exact hbranches
    · rw [hflat, hsetIds]
      exact hsets

/-- When a level is closed, its sets are those of a level that has been read. -/
theorem closeLevel_follows (follows : p.Follows levels current) :
    Progress.Follows (levels ++ [current]) [] { p with growth := p.growth.closeLevel } where
  growth := by
    refine Growth.closeLevel_follows follows.growth ?_
    rw [← flatten_concat]
    exact follows.distinct.branches
  branchIds := by rw [flatten_concat, List.append_nil, follows.branchIds]
  branchSetIds := by rw [flatten_concat, List.append_nil, follows.branchSetIds]
  distinct := DistinctLevels.append_nil_iff.mpr follows.distinct

end Steps

/-- Something holds after some closed levels and some sets of the level in progress. It goes on to
hold when the set of an element that meets a condition is read, and when the level is closed. -/
structure Kept (file : String) (condition : Element → Prop)
    (P : List (List (ListedSet Binary64)) → List (ListedSet Binary64) → Progress → Prop) :
    Prop where
  set : ∀ {levels current p p' e}, condition e → P levels current p →
    (readSet file p e).result = .ok p' →
      ∃ s, listed file e = .ok s ∧ P levels (current ++ [s]) p'
  close : ∀ {levels current p}, P levels current p →
    P (levels ++ [current]) [] { p with growth := p.growth.closeLevel }

namespace Kept
variable {condition : Element → Prop}
variable {P : List (List (ListedSet Binary64)) → List (ListedSet Binary64) → Progress → Prop}
variable {levels : List (List (ListedSet Binary64))} {current : List (ListedSet Binary64)}
variable {p p' : Progress}

theorem readSets (kept : Kept file condition P) {es : List Element}
    (meets : ∀ e ∈ es, condition e) (before : P levels current p)
    (h : es.foldlM (fun p e => (readSet file p e).result) p = .ok p') :
    ∃ sets, es.mapM (listed file) = .ok sets ∧ P levels (current ++ sets) p' := by
  induction es generalizing p current with
  | nil =>
    cases h
    exact ⟨[], rfl, by rwa [List.append_nil]⟩
  | cons e es ih =>
    obtain ⟨hfirst, hrest⟩ := List.forall_mem_cons.mp meets
    rw [List.foldlM_cons] at h
    obtain ⟨q, hread, h⟩ := bind_eq_ok.mp h
    obtain ⟨s, hlisted, hset⟩ := kept.set hfirst before hread
    obtain ⟨sets, hsets, hafter⟩ := ih hrest hset h
    refine ⟨s :: sets, mapM_cons_eq_ok.mpr ⟨s, sets, hlisted, hsets, rfl⟩, ?_⟩
    rwa [List.append_assoc, List.singleton_append] at hafter

theorem readLevel (kept : Kept file condition P) {es : List Element}
    (meets : ∀ e ∈ es, condition e) (before : P levels [] p)
    (h : (TreeReading.readLevel file p es).result = .ok p') :
    ∃ level, es.mapM (listed file) = .ok level ∧ P (levels ++ [level]) [] p' := by
  simp only [TreeReading.readLevel, Logged.result_bind, Logged.result_foldlM] at h
  obtain ⟨q, hread, h⟩ := bind_eq_ok.mp h
  cases h
  obtain ⟨level, hlevel, hafter⟩ := kept.readSets meets before hread
  exact ⟨level, hlevel, kept.close hafter⟩

theorem readEntry (kept : Kept file condition P) (meets : ∀ x ∈ entrySets e, condition x)
    (before : P levels [] p) (h : (TreeReading.readEntry file p e).result = .ok p') :
    ∃ level, (entrySets e).mapM (listed file) = .ok level ∧ P (levels ++ [level]) [] p' := by
  rw [TreeReading.readEntry] at h
  by_cases hlevel : e.name = "logicTreeBranchingLevel"
  · rw [if_pos hlevel] at h
    rw [entrySets, if_pos hlevel] at meets ⊢
    exact kept.readLevel meets before h
  · rw [if_neg hlevel] at h
    rw [entrySets, if_neg hlevel] at meets ⊢
    split at h
    · exact kept.readLevel meets before h
    · cases h

/-- What is kept holds after every entry that is read. -/
theorem readEntries (kept : Kept file condition P) {es : List Element}
    (meets : ∀ e ∈ es, ∀ x ∈ entrySets e, condition x) (before : P levels [] p)
    (h : es.foldlM (fun p e => (TreeReading.readEntry file p e).result) p = .ok p') :
    ∃ later, (es.map entrySets).mapM (·.mapM (listed file)) = .ok later ∧
      P (levels ++ later) [] p' := by
  induction es generalizing p levels with
  | nil =>
    cases h
    exact ⟨[], rfl, by rwa [List.append_nil]⟩
  | cons e es ih =>
    obtain ⟨hfirst, hrest⟩ := List.forall_mem_cons.mp meets
    rw [List.foldlM_cons] at h
    obtain ⟨q, hread, h⟩ := bind_eq_ok.mp h
    obtain ⟨level, hlevel, hentry⟩ := kept.readEntry hfirst before hread
    obtain ⟨later, hlater, hafter⟩ := ih hrest hentry h
    refine ⟨level :: later, mapM_cons_eq_ok.mpr ⟨level, later, hlevel, hlater, rfl⟩, ?_⟩
    rwa [List.append_assoc, List.singleton_append] at hafter

end Kept

theorem follows_kept : Kept file (fun _ => True) Progress.Follows where
  set := fun _ follows h => readSet_follows follows h
  close := closeLevel_follows

/-- Accepted levels are those that the element lists, and the tree is their unfolding. -/
theorem readLevels_follows {p : Progress} (h : (readLevels file e).result = .ok p) :
    ∃ levels, listedLevels file e = .ok levels ∧ p.Follows levels [] := by
  rw [readLevels, Logged.result_foldlM] at h
  obtain ⟨levels, hlevels, hfollows⟩ :=
    follows_kept.readEntries (fun _ _ _ _ => trivial) follows_start h
  rw [List.nil_append] at hfollows
  exact ⟨levels, hlevels, hfollows⟩

theorem readElement_eq_ok {root : Element} {tree : LogicTree}
    (h : (readElement file root).result = .ok tree) :
    ∃ e p, treeElement file root = .ok e ∧ (readLevels file e).result = .ok p ∧
      p.growth.tree = some tree := by
  simp only [readElement, Logged.result_bind, Logged.result_liftM] at h
  obtain ⟨e, he, h⟩ := bind_eq_ok.mp h
  obtain ⟨p, hp, h⟩ := bind_eq_ok.mp h
  refine ⟨e, p, he, hp, ?_⟩
  cases htree : p.growth.tree with
  | none =>
    rw [htree] at h
    cases h
  | some t =>
    rw [htree] at h
    cases h
    rfl

end TreeReading

theorem LogicTree.read_eq_ok {files : Files} {path : String} {tree : LogicTree}
    (h : (LogicTree.read files path).result = .ok tree) :
    ∃ root e p, (files.openExisting .missingInput path).result = .ok root ∧
      TreeReading.treeElement path root = .ok e ∧
      (TreeReading.readLevels path e).result = .ok p ∧ p.growth.tree = some tree := by
  rw [read, Logged.result_timed, Logged.result_bind] at h
  obtain ⟨root, hroot, h⟩ := bind_eq_ok.mp h
  obtain ⟨e, p, he, hp, htree⟩ := TreeReading.readElement_eq_ok h
  exact ⟨root, e, p, hroot, he, hp, htree⟩

namespace TreeReading

def branchSetNode (attributes : List (String × String)) (weight value : String)
    (ids : List String) : Node :=
  .element "logicTreeBranchSet" 1 attributes <| ids.map fun id =>
    .element "logicTreeBranch" 1 [("branchID", id)]
      [.element "uncertaintyModel" 1 [] [.text value],
        .element "uncertaintyWeight" 1 [] [.text weight]]

/-- A description whose second set leaves a branch open for the third one. -/
def leftOpen : Files where
  folder := ""
  entries := [("tree.xml", {
    root := some <| .element "logicTree" 1 []
      [.element "logicTreeBranchingLevel" 1 []
        [branchSetNode [("branchSetID", "models"), ("uncertaintyType", "sourceModel")]
          "0.5" "a.xml" ["b1", "b2"]],
      branchSetNode [("branchSetID", "slopes"), ("uncertaintyType", "bGRRelative"),
          ("applyToBranches", "b1")]
        "0.5" "0.1" ["c1", "c2"],
      branchSetNode [("branchSetID", "bounds"), ("uncertaintyType", "maxMagGRRelative")]
        "1" "0.2" ["d1"]]
    named := true
    trouble := none
    messages := [] })]

end TreeReading

end SeismicTree

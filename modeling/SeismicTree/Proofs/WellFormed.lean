import SeismicTree.Proofs.NumberOrder
import SeismicTree.Proofs.Routes
import SeismicTree.Proofs.TreeReading
import SeismicTree.Uncertainty.Application

/-!
# Trees that were read are well formed

Each branch set of a description is checked once, when its element is read, and the tree that grows
out of the sets holds many copies of them. Every set of an accepted tree, at any depth, is a copy of
a set that was checked, and a way from the root to a leaf goes through sets that are listed one
behind the other. So the checks hold everywhere in the tree, and an identifier is met at most once
on a way. A weight of NaN passes the test of its range; it is the test of the sum that stops it.
-/

namespace SeismicTree

namespace Filters

theorem mem_insertSorted {key value : String} {entries : List (String × String)}
    {f : String × String} (h : f ∈ insertSorted key value entries) :
    f = (key, value) ∨ f ∈ entries := by
  induction entries with
  | nil => exact Or.inl (List.mem_singleton.mp h)
  | cons entry rest ih =>
    rw [insertSorted] at h
    split at h
    · exact List.mem_cons.mp h
    · split at h
      · exact Or.inr h
      · rcases List.mem_cons.mp h with rfl | h
        · exact Or.inr List.mem_cons_self
        · exact (ih h).imp_right (List.mem_cons_of_mem entry)

theorem mem_ofList {conditions : List (String × String)} {f : String × String}
    (h : f ∈ (ofList conditions).entries) : f ∈ conditions := by
  suffices hfrom : ∀ start : Filters,
      f ∈ (conditions.foldl (fun g c => g.insert c.1 c.2) start).entries →
        f ∈ start.entries ∨ f ∈ conditions by
    exact (hfrom empty h).resolve_left List.not_mem_nil
  clear h
  induction conditions with
  | nil => exact fun start h => Or.inl h
  | cons condition rest ih =>
    intro start h
    rcases ih _ h with h | h
    · rcases mem_insertSorted h with rfl | h
      · exact Or.inr List.mem_cons_self
      · exact Or.inl h
    · exact Or.inr (List.mem_cons_of_mem condition h)

theorem exists_find? {filters : Filters} {f : String × String} (h : f ∈ filters.entries) :
    ∃ value, filters.find? f.1 = some value ∧ (f.1, value) ∈ filters.entries := by
  cases hfind : filters.entries.find? (·.1 == f.1) with
  | none => exact absurd (List.find?_eq_none.mp hfind f h) (by simp)
  | some g =>
    have hkey : g.1 = f.1 := by simpa using List.find?_some hfind
    refine ⟨g.2, by simp [find?, hfind], ?_⟩
    rw [← hkey]
    exact List.mem_of_find?_eq_some hfind

end Filters

/-- The types whose values modify sources take the values of their own form, and no others. -/
theorem Uncertainty.modification?_isSome_iff {u : Uncertainty} {value : UncertaintyValue} :
    (u.modification? value).isSome = true ↔ u.appliesToSources = true ∧ value.form = u.form := by
  cases u <;> cases value <;>
    simp [modification?, appliesToSources, form, UncertaintyValue.form]

theorem SourceKind.name_of_isSome {name : String} (h : (ofName? name).isSome = true) :
    name ∈ ["point", "area", "simpleFault", "complexFault", "characteristicFault"] := by
  obtain ⟨kind, hkind⟩ := Option.isSome_iff_exists.mp h
  have hname : kind.name = name := by simpa using List.find?_some hkind
  rw [← hname]
  cases kind <;> decide

/-- A value is read in the form of its type. -/
theorem UncertaintyValue.form_read {u : Uncertainty} {e : Element} {file : String}
    {value : UncertaintyValue} (h : UncertaintyValue.read u e file = .ok value) :
    value.form = u.form := by
  rw [UncertaintyValue.read] at h
  cases hform : u.form with
  | number =>
    rw [hform] at h
    simp only [readNumber] at h
    split at h
    · cases h; rfl
    · cases h
  | model =>
    rw [hform] at h
    cases h
    rfl
  | pair =>
    rw [hform] at h
    simp only [readPair] at h
    split at h
    · cases h; rfl
    · cases h
  | rates =>
    rw [hform] at h
    obtain ⟨_, _, rfl⟩ := map_eq_ok.mp h
    rfl
  | simpleFault =>
    rw [hform] at h
    obtain ⟨_, _, rfl⟩ := map_eq_ok.mp h
    rfl
  | complexFault =>
    rw [hform] at h
    obtain ⟨_, _, rfl⟩ := map_eq_ok.mp h
    rfl
  | surface =>
    rw [hform] at h
    simp only [readSurface] at h
    split at h
    · cases h
    · obtain ⟨_, _, h⟩ := bind_eq_ok.mp h
      obtain ⟨_, _, h⟩ := bind_eq_ok.mp h
      cases h
      rfl

/-- What a decision asks of its choices, and of itself. -/
structure Decision.Admits (d : Decision) (choices : List (Choice Binary64)) : Prop where
  nonempty : choices ≠ []
  known : d.uncertainty ≠ .unknown
  named : ∀ c ∈ choices, c.id ≠ ""
  weights : ∀ c ∈ choices, 0 < c.weight ∧ c.weight ≤ 1
  total : (1 - totalWeight (choices.map (·.weight))).abs ≤ 0.000001
  forms : ∀ c ∈ choices, c.value.form = d.uncertainty.form
  values : d.uncertainty.appliesToSources = true →
    ∀ c ∈ choices, (d.uncertainty.modification? c.value).isSome = true
  filterKeys : ∀ f ∈ d.filters.entries,
    f.1 ∈ ["applyToTectonicRegionType", "applyToSourceType", "applyToSources"]
  sourceTypes : ∀ f ∈ d.filters.entries, f.1 = "applyToSourceType" →
    f.2 ∈ ["point", "area", "simpleFault", "complexFault", "characteristicFault"]

namespace TreeReading

variable {file : String} {e : Element}

theorem mem_filtersOf {f : String × String} (h : f ∈ (filtersOf e).entries) :
    f.1 ∈ filterKeys ∧ f.2 = e.attributeText f.1 := by
  have hmem := (List.mem_filter.mp (Filters.mem_ofList h)).1
  obtain ⟨key, hkey, rfl⟩ := List.mem_map.mp hmem
  exact ⟨hkey, rfl⟩

theorem decision_eq_ok {id : String} {d : Decision} (h : decision file id e = .ok d) :
    d.uncertainty ≠ .unknown ∧ d.filters = filtersOf e ∧
      ∀ name, d.filters.find? "applyToSourceType" = some name →
        (SourceKind.ofName? name).isSome = true := by
  simp only [decision, check_eq_ok] at h
  obtain ⟨hknown, h⟩ := h
  cases hflag : e.attributeAs Bool "collapsed" with
  | error trouble =>
    rw [hflag] at h
    cases h
  | ok flag =>
    simp only [hflag, pure_bind] at h
    cases hfind : (filtersOf e).find? "applyToSourceType" with
    | none =>
      rw [hfind] at h
      cases h
      refine ⟨hknown, rfl, fun name hname => ?_⟩
      cases hfind.symm.trans hname
    | some name =>
      simp only [hfind, check_eq_ok] at h
      obtain ⟨hkind, h⟩ := h
      cases h
      refine ⟨hknown, rfl, fun name' hname => ?_⟩
      cases hfind.symm.trans hname
      simpa [Option.isSome_iff_ne_none] using hkind

theorem weight_eq_ok {id : String} {w : Binary64} (h : weight file id e = .ok w) :
    ¬ (w ≤ 0 ∨ 1 < w) := by
  simp only [weight] at h
  split at h
  · cases h
  · obtain ⟨hrange, h⟩ := check_eq_ok.mp h
    cases h
    exact hrange

theorem choice_eq_ok {u : Uncertainty} {used : List String} {c : Choice Binary64}
    (h : choice file u used e = .ok c) :
    c.id ≠ "" ∧ ¬ (c.weight ≤ 0 ∨ 1 < c.weight) ∧ c.value.form = u.form := by
  simp only [choice, check_eq_ok] at h
  obtain ⟨hname, _, h⟩ := h
  split at h
  · obtain ⟨w, hw, h⟩ := bind_eq_ok.mp h
    obtain ⟨value, hvalue, h⟩ := bind_eq_ok.mp h
    cases h
    exact ⟨hname, weight_eq_ok hw, UncertaintyValue.form_read hvalue⟩
  · cases h

theorem checkWeights_eq_ok {d : Decision} {weights : List Binary64} {x : Unit}
    (h : checkWeights file d e weights = .ok x) :
    weights ≠ [] ∧ Binary64.isClose 1 (totalWeight weights) 0.000001 = true := by
  simp only [checkWeights, check_eq_ok] at h
  obtain ⟨hempty, h⟩ := h
  refine ⟨by simpa using hempty, ?_⟩
  split at h
  · cases h
  · simp_all

theorem construct_admits {p p' : Progress} {s : ListedSet Binary64}
    (h : (construct file p e).result = .ok (s, p')) : s.decision.Admits s.choices := by
  simp only [construct, Logged.result_bind, Logged.result_liftM, Logged.result_note_before,
    Logged.result_pure] at h
  obtain ⟨id, _, h⟩ := bind_eq_ok.mp h
  obtain ⟨d, hd, h⟩ := bind_eq_ok.mp h
  obtain ⟨⟨cs, used⟩, hcs, h⟩ := bind_eq_ok.mp h
  obtain ⟨_, hcheck, h⟩ := bind_eq_ok.mp h
  cases h
  obtain ⟨hknown, hfilters, hkind⟩ := decision_eq_ok hd
  obtain ⟨hnonempty, hclose⟩ := checkWeights_eq_ok hcheck
  have hread : ∀ c ∈ cs, ∃ e, choice file d.uncertainty [] e = .ok c := fun c hc => by
    obtain ⟨e, _, he⟩ := exists_of_mapM_eq_ok (choices_eq_ok hcs).1 hc
    exact ⟨e, he⟩
  have hchoice : ∀ c ∈ cs, c.id ≠ "" ∧ ¬ (c.weight ≤ 0 ∨ 1 < c.weight) ∧
      c.value.form = d.uncertainty.form := fun c hc => (hread c hc).elim fun _ => choice_eq_ok
  -- A weight of NaN is in the range, but not in a sum that is close to one.
  have hnumber : ∀ c ∈ cs, c.weight.isNaN = false := fun c hc =>
    not_isNaN_of_isClose hclose c.weight (List.mem_map_of_mem hc)
  refine ⟨?nonempty, hknown, fun c hc => (hchoice c hc).1, ?weights, ?total,
    fun c hc => (hchoice c hc).2.2, ?values, ?filterKeys, ?sourceTypes⟩
  case nonempty => exact fun hnil => hnonempty (congrArg (List.map (·.weight)) hnil)
  case weights =>
    intro c hc
    obtain ⟨hpositive, hone⟩ := not_or.mp (hchoice c hc).2.1
    exact ⟨Binary64.lt_of_not_le (hnumber c hc) (by decide +kernel) hpositive,
      Binary64.le_of_not_lt (by decide +kernel) (hnumber c hc) hone⟩
  case total =>
    have hbound : (1 : Binary64).abs * 0.000001 = 0.000001 := by decide +kernel
    rw [← hbound]
    exact of_decide_eq_true hclose
  case values =>
    exact fun happlies c hc =>
      Uncertainty.modification?_isSome_iff.mpr ⟨happlies, (hchoice c hc).2.2⟩
  case filterKeys =>
    intro f hf
    rw [hfilters] at hf
    exact (mem_filtersOf hf).1
  case sourceTypes =>
    intro f hf hkey
    obtain ⟨value, hfind, hmem⟩ := Filters.exists_find? hf
    rw [hfilters] at hf hmem
    have hvalue : value = f.2 := (mem_filtersOf hmem).2.trans (mem_filtersOf hf).2.symm
    exact SourceKind.name_of_isSome (hkind f.2 (hvalue ▸ hkey ▸ hfind))

/-- What has been read, and that all of it was checked. -/
structure Progress.Checked (levels : List (List (ListedSet Binary64)))
    (current : List (ListedSet Binary64)) (p : Progress) : Prop where
  follows : p.Follows levels current
  admits : ∀ s ∈ levels.flatten ++ current, s.decision.Admits s.choices

theorem checked_kept : Kept file (fun _ => True) Progress.Checked where
  set := by
    intro levels current p p' e _ before h
    obtain ⟨s, hlisted, follows⟩ := readSet_follows before.follows h
    refine ⟨s, hlisted, follows, fun s' hs' => ?_⟩
    obtain ⟨s₀, q, growth, hconstruct, _, _⟩ := readSet_eq_ok h
    have hsame : s₀ = s :=
      Except.ok.inj ((construct_eq_ok hconstruct).1.symm.trans hlisted)
    rw [← List.append_assoc] at hs'
    rcases List.mem_append.mp hs' with hold | hnew
    · exact before.admits s' hold
    · rw [List.mem_singleton.mp hnew, ← hsame]
      exact construct_admits hconstruct
  close := by
    intro levels current p before
    refine ⟨closeLevel_follows before.follows, ?_⟩
    rw [flatten_concat, List.append_nil]
    exact before.admits

/-- Every listed set of an accepted description was checked. -/
theorem readLevels_checked {p : Progress} (h : (readLevels file e).result = .ok p) :
    ∃ levels, p.Checked levels [] := by
  rw [readLevels, Logged.result_foldlM] at h
  have hstart : Progress.start.Checked [] [] := ⟨follows_start, by simp⟩
  obtain ⟨levels, _, hchecked⟩ :=
    checked_kept.readEntries (fun _ _ _ _ => trivial) hstart h
  exact ⟨_, hchecked⟩

end TreeReading

namespace BranchSet
variable {ω : Type}

/-- The sets on a route of an unfolding are listed one behind the other, and so are the branches. -/
theorem Route.listed {s : ListedSet ω} {later : List (List (ListedSet ω))} {t : BranchSet ω}
    {route : List (Stage ω)} (h : t.Route route) (unfold : t = s.before later) :
    (route.map (·.set.id)).Sublist ((s :: later.flatten).map (·.decision.id)) ∧
      (route.map (·.branch.id)).Sublist ((s :: later.flatten).flatMap ListedSet.ids) := by
  induction h generalizing s later with
  | @leaf t b mem last =>
    subst unfold
    obtain ⟨c, hc, rfl⟩ := ListedSet.mem_branches_before.mp mem
    constructor
    · exact (List.nil_sublist _).cons_cons _
    · refine List.singleton_sublist.mpr (List.mem_flatMap.mpr ⟨s, List.mem_cons_self, ?_⟩)
      exact List.mem_map_of_mem hc
  | @step t u b route mem child below ih =>
    subst unfold
    obtain ⟨c, hc, rfl⟩ := ListedSet.mem_branches_before.mp mem
    -- The set behind the branch is of a later level, with only later ones behind it.
    obtain ⟨level', later', s', hsuffix, hs', rfl, _⟩ := behind_eq_some child
    have hlater : (s' :: later'.flatten).Sublist later.flatten :=
      ((List.singleton_sublist.mpr hs').append_right _).trans (flatten_suffix hsuffix).sublist
    obtain ⟨hsets, hbranches⟩ := ih rfl
    constructor
    · exact (hsets.trans (hlater.map _)).cons_cons _
    · have hhere : [c.id].Sublist s.ids := List.singleton_sublist.mpr (List.mem_map_of_mem hc)
      exact hhere.append (hbranches.trans (hlater.flatMap _))

end BranchSet

/-- Every set of the tree, at any depth, admits its choices, and no identifier is met twice on a way
from the root to a leaf. -/
structure LogicTree.WellFormed (t : LogicTree) : Prop where
  sets : ∀ s ∈ t.sets, s.decision.Admits (s.branches.map (·.choice))
  branchIds : ∀ route, t.Route route → (route.map (·.branch.id)).Nodup
  setIds : ∀ route, t.Route route → (route.map (·.set.id)).Nodup

theorem LogicTree.WellFormed.populated {t : LogicTree} (wellFormed : t.WellFormed) :
    t.Populated := by
  intro s hs hnil
  refine (wellFormed.sets s hs).nonempty ?_
  rw [hnil]
  rfl

/-- The unfolding of levels is well formed if their sets admit their choices and no identifier is
used twice. -/
theorem LogicTree.wellFormed_ofLevels? {levels : List (List (ListedSet Binary64))}
    {tree : LogicTree} (distinct : DistinctLevels levels)
    (admits : ∀ s ∈ levels.flatten, s.decision.Admits s.choices)
    (unfold : BranchSet.ofLevels? levels = some tree) : tree.WellFormed := by
  obtain ⟨level, later, s, hsuffix, hs, hroot, _⟩ := BranchSet.ofLevels?_eq_some unfold
  have hlisted : (s :: later.flatten).Sublist levels.flatten :=
    ((List.singleton_sublist.mpr hs).append_right _).trans (flatten_suffix hsuffix).sublist
  refine ⟨?sets, ?branchIds, ?setIds⟩
  case sets =>
    intro u hu
    obtain ⟨level', later', s', hsuffix', hs', rfl⟩ := BranchSet.mem_sets_ofLevels? unfold hu
    have hmem := (flatten_suffix hsuffix').subset (List.mem_append_left _ hs')
    obtain ⟨hdecision, hchoices⟩ := s'.describes_before later'
    rw [hdecision, hchoices]
    exact admits s' hmem
  case branchIds =>
    exact fun route hroute =>
      distinct.branches.sublist ((hroute.listed hroot).2.trans (hlisted.flatMap _))
  case setIds =>
    exact fun route hroute =>
      distinct.sets.sublist ((hroute.listed hroot).1.trans (hlisted.map _))

/-- A tree that was read is the unfolding of listed sets that were all checked. -/
theorem LogicTree.exists_checked {files : Files} {path : String} {tree : LogicTree}
    (h : (LogicTree.read files path).result = .ok tree) :
    ∃ levels, DistinctLevels levels ∧ (∀ s ∈ levels.flatten, s.decision.Admits s.choices) ∧
      BranchSet.ofLevels? levels = some tree := by
  obtain ⟨_, e, p, _, _, hp, htree⟩ := read_eq_ok h
  obtain ⟨levels, hchecked⟩ := TreeReading.readLevels_checked hp
  refine ⟨levels, DistinctLevels.append_nil_iff.mp hchecked.follows.distinct, ?_, ?_⟩
  · exact fun s hs => hchecked.admits s (List.mem_append_left _ hs)
  · rw [← BranchSet.ofLevels?_append_nil, ← hchecked.follows.growth.tree, htree]

end SeismicTree

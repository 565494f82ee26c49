import SeismicTree.Proofs.AnalysisFailures
import SeismicTree.Proofs.GroupRegions

/-!
# Where an analysis fails

An analysis goes through its realizations in order, each of them through the groups, a group through
its sources, and a source through the selections that apply to it. The failure that it ends with is
the first one on this way, with the ordinal of the realization and the source added and all else as
it was. The selections in front of the refused one have been applied to the source by then, and the
realizations in front of the one that fails have been recorded, each of them with all of its groups.
-/

namespace SeismicTree

namespace Selection

/-- A selection cannot be applied to a working copy, and this is the failure. -/
inductive RefusesWith (w : Source) (a : Selection Binary64) (e : Failure) : Prop
  | plain (single : a.isCollapsed = false)
    (fails : Source.apply a.set.decision.uncertainty a.value w = .error e)
  | composite (collapsed : a.isCollapsed = true) (multi : w.isMultiSurface = true)
    (stated : e = {
      cause := .collapsedMultiSurface
      context := { source := some w.id, branchSet := some a.set.decision.id } })
  | branch (b : Branch Binary64) (collapsed : a.isCollapsed = true)
    (simple : w.isMultiSurface = false)
    (first : FirstFailure
      (fun b => Source.apply a.set.decision.uncertainty b.value { w with scalingRate := b.weight })
      a.set.branches b e)

theorem settle_eq_error {a : Selection Binary64} {w : Source} {e : Failure}
    (single : a.isCollapsed = false) : a.settle w = .error e ↔ a.RefusesWith w e := by
  rw [settle_plain w single]
  refine ⟨.plain single, fun h => ?_⟩
  cases h with
  | plain _ fails => exact fails
  | composite collapsed => cases single.symm.trans collapsed
  | branch _ collapsed => cases single.symm.trans collapsed

theorem copies_eq_error {a : Selection Binary64} {w : Source} {e : Failure}
    (collapsed : a.isCollapsed = true) : a.copies w = .error e ↔ a.RefusesWith w e := by
  rw [copies, if_pos collapsed]
  constructor
  · intro h
    split at h
    · rename_i hmulti
      cases h
      exact .composite collapsed hmulti rfl
    · rename_i hmulti
      obtain ⟨b, hfirst⟩ := mapM_eq_error.mp h
      exact .branch b collapsed (Bool.eq_false_iff.mpr hmulti) hfirst
  · intro h
    cases h with
    | plain single => cases single.symm.trans collapsed
    | composite _ multi stated => rw [if_pos multi, stated]
    | branch _ _ simple first =>
      rw [simple, if_neg Bool.false_ne_true]
      exact mapM_eq_error.mpr ⟨_, first⟩

end Selection

theorem Transforming.step_eq_error {t : Transforming} {a : Selection Binary64} {e : Failure} :
    (t.step a).result = .error e ↔ a.RefusesWith t.working e := by
  rw [result_step]
  cases hcollapsed : a.isCollapsed with
  | false =>
    rw [Selection.copies_plain _ hcollapsed, ok_bind, ← Selection.settle_eq_error hcollapsed]
    exact bind_ok_eq_error
  | true =>
    rw [Selection.settle_collapsed _ hcollapsed, ← Selection.copies_eq_error hcollapsed]
    exact bind_ok_eq_error

/-- Of the selections that apply to a source, those in front of one of them are applied, and that
one is refused. -/
def Source.StopsAt (sels : List (Selection Binary64)) (source : Source) (a : Selection Binary64)
    (e : Failure) : Prop :=
  ∃ before after t, applicable sels source = .ok (before ++ a :: after) ∧
    (before.foldlM Transforming.step (.start source)).result = .ok t ∧ a.RefusesWith t.working e

section Groups
variable {sels as : List (Selection Binary64)} {source : Source} {e : Failure}

theorem transformSource_eq_error (tested : applicable sels source = .ok as) :
    (transformSource sels source).result = .error e ↔ ∃ a, source.StopsAt sels a e := by
  simp only [Source.StopsAt, tested, Except.ok.injEq]
  cases as with
  | nil =>
    rw [transformSource, Logged.result_bind, Logged.result_liftM, tested]
    refine iff_of_false (fun h => not_fails_ok _ ⟨e, h⟩) ?_
    rintro ⟨a, before, after, t, h, _⟩
    simp at h
  | cons a as =>
    rw [result_transformSource_chosen tested (List.cons_ne_nil a as)]
    refine bind_ok_eq_error.trans ?_
    rw [Logged.result_foldlM, foldlM_eq_error]
    constructor
    · rintro ⟨before, b, after, t, hsplit, hbefore, hb⟩
      rw [← Logged.result_foldlM] at hbefore
      exact ⟨b, before, after, t, hsplit, hbefore, Transforming.step_eq_error.mp hb⟩
    · rintro ⟨b, before, after, t, hsplit, hbefore, hb⟩
      rw [Logged.result_foldlM] at hbefore
      exact ⟨before, b, after, t, hsplit, hbefore, Transforming.step_eq_error.mpr hb⟩

theorem applySelections_eq_error {g : SourceGroup} :
    (applySelections sels g).result = .error e ↔
      ∃ s, FirstFailure (fun s => (transformSource sels s).result) g.sources s e := by
  rw [applySelections, Logged.result_timed, Logged.result_bind, ← mapM_eq_error,
    result_transformSources_mapM]
  exact bind_ok_eq_error.trans bind_ok_eq_error

end Groups

section Attribution
variable {sels : List (Selection Binary64)} {a : Selection Binary64} {w : Source} {e : Failure}

/-- A value of the form of its type fails with the source that it is applied to. -/
theorem Source.apply_failsWith_source {u : Uncertainty} {value : UncertaintyValue}
    (fits : (u.modification? value).isSome = true) (s : Source) :
    FailsWith (fun e => e.context.source = some s.id) (s.apply u value) := by
  obtain ⟨m, hm⟩ := Option.isSome_iff_exists.mp fits
  rw [apply, if_pos (Uncertainty.modification?_isSome_iff.mp fits).1, hm]
  exact failsWith_mapError fun _ _ => rfl

theorem Selection.RefusesWith.source (fits : a.Fits) (h : a.RefusesWith w e) :
    e.context.source = some w.id := by
  cases h with
  | plain _ fails => exact Source.apply_failsWith_source fits.value w e fails
  | composite _ _ stated => rw [stated]
  | branch b _ _ first =>
    have hvalue := fits.admits.values fits.applies b.choice (List.mem_map_of_mem first.mem)
    exact Source.apply_failsWith_source hvalue { w with scalingRate := b.weight } e first.fails

/-- The working copy still has the identifier of the source when a selection is refused. -/
theorem Source.StopsAt.source (fits : ∀ a ∈ sels, a.Fits) (h : w.StopsAt sels a e) :
    e.context.source = some w.id := by
  obtain ⟨before, after, t, hchosen, hbefore, hrefuses⟩ := h
  have hmem : a ∈ sels := applicable_subset hchosen (by simp)
  have hworking := (Transforming.foldlM_labelled before w t hbefore).working
  rw [hrefuses.source (fits a hmem), hworking.id]

end Attribution

theorem firstFailure_withContext {α β : Type} {op : α → Except Failure β} {as : List α} {a : α}
    {f : Failure} (change : Context → Context) :
    FirstFailure (fun b => withContext change (op b)) as a f ↔
      ∃ e, FirstFailure op as a e ∧ f = e.within change := by
  have hfails : ∀ b, Fails (withContext change (op b)) ↔ Fails (op b) := fun b => by
    cases op b <;> simp [Fails]
  have hfailure : withContext change (op a) = .error f ↔
      ∃ e, op a = .error e ∧ f = e.within change := by
    cases op a <;> simp [eq_comm]
  simp only [FirstFailure, hfails, hfailure]
  constructor
  · rintro ⟨before, after, hsplit, hbefore, e, ha, rfl⟩
    exact ⟨e, ⟨before, after, hsplit, hbefore, ha⟩, rfl⟩
  · rintro ⟨e, ⟨before, after, hsplit, hbefore, ha⟩, rfl⟩
    exact ⟨before, after, hsplit, hbefore, e, ha, rfl⟩

/-- A place on the way of an analysis: a draft with those in front of it and the selections along
it, and a group, a source and a selection. -/
structure Place where
  done : List Draft
  draft : Draft
  selections : List (Selection Binary64)
  group : SourceGroup
  source : Source
  selection : Selection Binary64

def Place.changing (x : Place) : List (Selection Binary64) :=
  x.selections.filter (·.set.uncertainty.appliesToSources)

namespace Analysis
variable {a : Analysis} {ids : List String} {sels : List (Selection Binary64)}

/-- The first failure on the way of an analysis is at a place. All drafts in front have become
realizations, each with all of its groups. -/
structure StopsAt (a : Analysis) (x : Place) (e : Failure) : Prop where
  drafts : ∃ later, a.drafts = x.done ++ x.draft :: later
  recorded : a.run.findings.realizations.length = x.done.length
  complete : ∀ (i : Nat) (r : Realization), a.run.findings.realizations[i]? = some r →
    ∃ d, x.done[i]? = some d ∧ r.Completes a i d
  selections : (a.tree.selections x.draft.ids).result = .ok x.selections
  group : FirstFailure (fun g => (applySelections x.changing g).result) a.groups x.group e
  source : FirstFailure (fun s => (transformSource x.changing s).result) x.group.sources x.source e
  selection : x.source.StopsAt x.changing x.selection e

/-- The groups are transformed up to the first that fails. -/
theorem transform_eq_error (selected : (a.tree.selections ids).result = .ok sels) {n : Nat}
    {f : Failure} : (a.transform n ids).result = .error f ↔
      ∃ g e, FirstFailure (fun g => (applySelections
          (sels.filter (·.set.uncertainty.appliesToSources)) g).result) a.groups g e ∧
        f = e.within fun c => { c with realization := some n } := by
  simp only [← firstFailure_withContext, ← mapM_eq_error]
  rw [transform]
  split
  · rename_i hnone
    rw [List.isEmpty_iff.mp hnone]
    exact iff_of_false (fun h => not_fails_ok _ ⟨f, h⟩) (fun h => not_fails_ok _ ⟨f, h⟩)
  · rw [Logged.result_bind, selected, ok_bind, Logged.result_mapM]
    rfl

/-- For a tree that was read, an analysis that fails does so with the first failure on its way, with
the ordinal of the realization and the identifier of the source. -/
theorem run_stopsAt {files : Files} {path : String} {tree : LogicTree}
    (read : (LogicTree.read files path).result = .ok tree) (groups : List SourceGroup)
    (settings : Settings) {f : Failure}
    (failed : (run ⟨tree, groups, settings⟩).failure = some f) :
    ∃ x e, StopsAt ⟨tree, groups, settings⟩ x e ∧
      f = e.within (fun c => { c with realization := some x.done.length }) ∧
      f.context.realization = some x.done.length ∧ f.context.source = some x.source.id := by
  have usable := LogicTree.usable_of_read read
  obtain ⟨hrealizations, hfailure⟩ := run_realizes ⟨tree, groups, settings⟩
  rw [hfailure] at failed
  obtain ⟨done, d, later, hdrafts, hcomplete, hdone, hfails⟩ := realizeFrom_eq_some failed
  rw [hdone] at hrealizations
  have hmem : d ∈ drafts ⟨tree, groups, settings⟩ := by simp [hdrafts]
  obtain ⟨route, hroute, hids⟩ := exists_route_of_mem_drafts usable hmem
  have hselections := selections_route usable hroute
  rw [← hids] at hselections
  rw [Nat.zero_add] at hfails
  obtain ⟨g, e, hgroup, hwithin⟩ := (transform_eq_error hselections).mp hfails
  obtain ⟨s, hsource⟩ := applySelections_eq_error.mp hgroup.fails
  have fits := usable.fits hroute
  obtain ⟨as, htested⟩ := exists_applicable fits s
  obtain ⟨p, hselection⟩ := (transformSource_eq_error htested).mp hsource.fails
  refine ⟨⟨done, d, route.map Stage.selection, g, s, p⟩, e, ?_, hwithin, ?_, ?_⟩
  · refine ⟨⟨later, hdrafts⟩, ?_, fun i r hr => ?_, hselections, hgroup, hsource, hselection⟩
    · rw [hrealizations, length_realizeFrom hcomplete]
    · rw [hrealizations] at hr
      simpa using realizeFrom_completes hr
  · rw [hwithin]
    rfl
  · have hsourceId := hselection.source fits
    rw [hwithin]
    exact hsourceId

/-- A description with changes of slopes, and with two bounds for one source. -/
def boundTree : Files where
  folder := ""
  entries := [("tree.xml", {
    root := some <| .element "logicTree" 1 []
      [TreeReading.branchSetNode [("branchSetID", "slopes"), ("uncertaintyType", "bGRRelative")]
        "1" "0.1" ["c1"],
      .element "logicTreeBranchSet" 1
        [("branchSetID", "bounds"), ("uncertaintyType", "maxMagGRAbsolute"),
          ("applyToSources", "p2")] <|
        [("d1", "7.5"), ("d2", "4")].map fun (id, value) =>
          .element "logicTreeBranch" 1 [("branchID", id)]
            [.element "uncertaintyModel" 1 [] [.text value],
              .element "uncertaintyWeight" 1 [] [.text "0.5"]]]
    named := true
    trouble := none
    messages := [] })]

def boundGroups : List SourceGroup :=
  [pointGroup (some gentleLaw),
    ⟨"crust", "", [.pointOf "p1" 7 1 1, .pointOf "p2" 7 1 1, .pointOf "p2" 7 1 1], 0⟩]

/-- The second bound is below all magnitudes of the second source of the second group. -/
theorem run_stopsAt_bound :
    ∃ tree x e f, (LogicTree.read boundTree "tree.xml").result = .ok tree ∧
      (run ⟨tree, boundGroups, .standard⟩).failure = some f ∧
      StopsAt ⟨tree, boundGroups, .standard⟩ x e ∧ f.kind = .domain ∧
      f.context.realization = some 1 ∧ x.done.length = 1 ∧ x.source.id = "p2" := by
  have hrun : (LogicTree.read boundTree "tree.xml").result.toOption.map (fun tree =>
      (run ⟨tree, boundGroups, .standard⟩).failure.map fun f =>
        (f.kind, f.context.realization, f.context.source)) =
      some (some (.domain, some 1, some "p2")) := by decide +kernel
  obtain ⟨tree, hread, hfailure⟩ := exists_of_toOption_map hrun
  obtain ⟨f, hf, hshown⟩ := Option.map_eq_some_iff.mp hfailure
  obtain ⟨hkind, hshown⟩ := Prod.mk.inj hshown
  obtain ⟨hordinal, hsource⟩ := Prod.mk.inj hshown
  obtain ⟨x, e, hstops, _, hdone, hid⟩ := run_stopsAt hread boundGroups .standard hf
  refine ⟨tree, x, e, f, hread, hf, hstops, hkind, hordinal, ?_, ?_⟩
  · exact Option.some.inj (hdone.symm.trans hordinal)
  · exact Option.some.inj (hid.symm.trans hsource)

end Analysis

end SeismicTree

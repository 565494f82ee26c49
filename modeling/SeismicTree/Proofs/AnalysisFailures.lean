import SeismicTree.Proofs.CheckFailures
import SeismicTree.Proofs.Filtering
import SeismicTree.Proofs.Realizations
import SeismicTree.Proofs.Samples
import SeismicTree.Proofs.Transformation
import SeismicTree.Proofs.WellFormed

/-!
# How an analysis can fail

What a tree asks of sources may not be possible for them: a source may not support a modification,
a modified value may be outside of its domain, and a source on a composite surface is not collapsed.
For a tree that was read these are the only ways in which an analysis fails. Its filters are known,
its values have the forms of their types, a choice of a model is never applied, and the identifiers
on a path or in a sample are always found. Nothing is assumed about the sources.
-/

namespace SeismicTree

def modificationKinds : List FailureKind := [.illegalOperation, .domain]

def analysisKinds : List FailureKind := [.illegalOperation, .domain, .notImplemented]

theorem illegalOperation_mem : FailureKind.illegalOperation ∈ modificationKinds := by decide

theorem domain_mem : FailureKind.domain ∈ modificationKinds := by decide

theorem notImplemented_mem : FailureKind.notImplemented ∈ analysisKinds := by decide

theorem modificationKinds_subset : modificationKinds ⊆ analysisKinds := by decide

section Modifications

/-- What a check that passes leads to. -/
theorem failsOnly_map_check {α β : Type} {x : Except Failure α} {g : α → β}
    (h : FailsWith Failure.OutsideDomain x) : FailsOnly modificationKinds (g <$> x) :=
  failsOnly_map fun f hf => (h f hf).kind ▸ domain_mem

theorem Mfd.modify_failsOnly (m : Mfd) (change : MfdChange) :
    FailsOnly modificationKinds (m.modify change) := by
  unfold modify
  split
  · exact failsOnly_map_check (GutenbergRichter.checked_outside _)
  · exact failsOnly_map_check (GutenbergRichter.checked_outside _)
  · exact failsOnly_map_check (GutenbergRichter.checked_outside _)
  · exact failsOnly_map_check (GutenbergRichter.checked_outside _)
  · exact failsOnly_map_check (BinnedRates.checked_outside _)
  · exact failsOnly_error illegalOperation_mem

namespace Source

theorem modify_failsOnly (s : Source) (change : SourceChange) :
    FailsOnly modificationKinds (s.modify change) := by
  unfold modify
  refine failsOnly_withContext _ ?_
  cases hbody : changeBody? s.body change with
  | none => exact failsOnly_error illegalOperation_mem
  | some body =>
    refine failsOnly_map ?_
    unfold changeBody? at hbody
    split at hbody
    · cases hbody
      exact failsOnly_map_check (checkDip_outside _)
    · cases hbody
      exact failsOnly_map_check (checkDip_outside _)
    · cases hbody
      exact failsOnly_map_check (checkSimpleFault_outside _)
    · cases hbody
      exact failsOnly_map_check (checkComplexFault_outside _)
    · cases hbody
      exact failsOnly_ok _
    · cases hbody

theorem carryOut_failsOnly (s : Source) (m : Modification) :
    FailsOnly modificationKinds (s.carryOut m) := by
  cases m with
  | ofSource change => exact modify_failsOnly s change
  | ofMfd change =>
    rw [carryOut, modifyMfd]
    split
    · exact failsOnly_map (Mfd.modify_failsOnly _ change)
    · exact failsOnly_error illegalOperation_mem

/-- A value that its type turns into a modification can only fail as one. -/
theorem apply_failsOnly {u : Uncertainty} {value : UncertaintyValue}
    (fits : (u.modification? value).isSome = true) (s : Source) :
    FailsOnly modificationKinds (s.apply u value) := by
  obtain ⟨m, hm⟩ := Option.isSome_iff_exists.mp fits
  rw [apply, if_pos (Uncertainty.modification?_isSome_iff.mp fits).1, hm]
  exact failsOnly_withContext _ (carryOut_failsOnly s m)

end Source

end Modifications

namespace Decision
variable {d : Decision} {choices : List (Choice Binary64)}

/-- The filters of a set that was checked can all be tested. -/
theorem passes_failsOnly (admits : d.Admits choices) {f : String × String}
    (hf : f ∈ d.filters.entries) (source : Source) :
    FailsOnly [] (d.passes f.1 f.2 source) := by
  rw [passes_of_known ⟨admits.filterKeys f hf, admits.sourceTypes f hf⟩]
  exact failsOnly_ok _

theorem applies_failsOnly (admits : d.Admits choices) (source : Source) :
    FailsOnly [] (d.applies source) := by
  suffices hfrom : ∀ entries ⊆ d.filters.entries, FailsOnly [] (d.passesAll source entries) from
    hfrom _ (List.Subset.refl _)
  intro entries hentries
  induction entries with
  | nil => exact failsOnly_ok true
  | cons f rest ih =>
    obtain ⟨hf, hrest⟩ := List.cons_subset.mp hentries
    refine failsOnly_bind (passes_failsOnly admits hf source) fun passed _ => ?_
    cases passed with
    | false => exact failsOnly_ok false
    | true => exact ih hrest

end Decision

/-- A selection of a set that was checked, with a value that modifies sources. -/
structure Selection.Fits (a : Selection Binary64) : Prop where
  admits : a.set.decision.Admits (a.set.branches.map (·.choice))
  applies : a.set.uncertainty.appliesToSources = true
  value : (a.set.uncertainty.modification? a.value).isSome = true

section Transformations
variable {a : Selection Binary64} {sels : List (Selection Binary64)}

theorem Selection.settle_failsOnly (fits : a.Fits) (w : Source) :
    FailsOnly analysisKinds (a.settle w) := by
  unfold settle
  split
  · exact failsOnly_ok w
  · exact (Source.apply_failsOnly fits.value w).mono modificationKinds_subset

theorem Selection.copies_failsOnly (fits : a.Fits) (w : Source) :
    FailsOnly analysisKinds (a.copies w) := by
  unfold copies
  split
  · split
    · exact failsOnly_error notImplemented_mem
    · refine failsOnly_mapM fun b hb => ?_
      have hvalue := fits.admits.values fits.applies b.choice (List.mem_map_of_mem hb)
      exact (Source.apply_failsOnly hvalue _).mono modificationKinds_subset
  · exact failsOnly_ok []

theorem Transforming.step_failsOnly (fits : a.Fits) (t : Transforming) :
    FailsOnly analysisKinds (t.step a).result := by
  rw [result_step]
  refine failsOnly_bind (Selection.copies_failsOnly fits _) fun copies _ => ?_
  refine failsOnly_bind (Selection.settle_failsOnly fits _) fun working _ => ?_
  exact failsOnly_ok _

theorem applicable_failsOnly (fits : ∀ a ∈ sels, a.Fits) (source : Source) :
    FailsOnly [] (applicable sels source) := by
  rw [applicable_eq]
  refine failsOnly_bind (failsOnly_forM fun a ha => ?_) fun _ _ => failsOnly_ok _
  exact Decision.applies_failsOnly (fits a ha).admits source

theorem exists_applicable (fits : ∀ a ∈ sels, a.Fits) (source : Source) :
    ∃ as, applicable sels source = .ok as := by
  rw [exists_eq_ok_iff]
  rintro ⟨f, hf⟩
  cases applicable_failsOnly fits source f hf

theorem applicable_subset {as : List (Selection Binary64)} {source : Source}
    (h : applicable sels source = .ok as) : as ⊆ sels := by
  rw [applicable_eq] at h
  obtain ⟨_, _, h⟩ := bind_eq_ok.mp h
  cases h
  exact List.filter_subset_self _

theorem transformSource_failsOnly (fits : ∀ a ∈ sels, a.Fits) (source : Source) :
    FailsOnly analysisKinds (transformSource sels source).result := by
  obtain ⟨as, hchosen⟩ := exists_applicable fits source
  cases as with
  | nil =>
    rw [transformSource, Logged.result_bind, Logged.result_liftM, hchosen]
    exact failsOnly_ok _
  | cons a as =>
    rw [result_transformSource_chosen hchosen (List.cons_ne_nil a as), Logged.result_foldlM]
    refine failsOnly_bind (failsOnly_foldlM (fun b hb t => ?_) _) fun t _ => failsOnly_ok _
    exact Transforming.step_failsOnly (fits b (applicable_subset hchosen hb)) t

theorem transformSources_failsOnly (fits : ∀ a ∈ sels, a.Fits) (sources : List Source) :
    FailsOnly analysisKinds (transformSources sels sources).result := by
  induction sources with
  | nil => exact failsOnly_ok _
  | cons source sources ih =>
    rw [transformSources, Logged.result_bind]
    refine failsOnly_bind (transformSource_failsOnly fits source) fun first _ => ?_
    rw [Logged.result_bind]
    exact failsOnly_bind ih fun rest _ => failsOnly_ok _

theorem applySelections_failsOnly (fits : ∀ a ∈ sels, a.Fits) (group : SourceGroup) :
    FailsOnly analysisKinds (applySelections sels group).result := by
  rw [applySelections, Logged.result_timed, Logged.result_bind]
  exact failsOnly_bind (transformSources_failsOnly fits group.sources) fun _ _ => failsOnly_ok _

end Transformations

/-- What a tree that was read offers to an analysis. -/
structure LogicTree.Usable (t : LogicTree) : Prop where
  wellFormed : t.WellFormed
  distinct : t.Distinct

theorem LogicTree.usable_of_read {files : Files} {path : String} {tree : LogicTree}
    (h : (LogicTree.read files path).result = .ok tree) : tree.Usable := by
  obtain ⟨levels, hdistinct, hadmits, hunfold⟩ := exists_checked h
  exact ⟨wellFormed_ofLevels? hdistinct hadmits hunfold,
    BranchSet.distinct_ofLevels? hdistinct.branches hunfold⟩

/-- What is selected on a route and modifies sources fits them. -/
theorem LogicTree.Usable.fits {tree : LogicTree} {route : List (Stage Binary64)}
    (usable : tree.Usable) (h : tree.Route route) :
    ∀ a ∈ (route.map Stage.selection).filter (·.set.uncertainty.appliesToSources), a.Fits := by
  intro a ha
  obtain ⟨hmem, happlies⟩ := List.mem_filter.mp ha
  obtain ⟨x, hx, rfl⟩ := List.mem_map.mp hmem
  have hadmits := usable.wellFormed.sets x.set (h.sets x hx)
  exact ⟨hadmits, happlies, hadmits.values happlies x.branch.choice (List.mem_map_of_mem x.mem)⟩

namespace Analysis
variable {a : Analysis} {route : List (Stage Binary64)}

/-- The selections along the identifiers of a route are those of the route. -/
theorem selections_route (usable : a.tree.Usable) (h : a.tree.Route route) :
    (a.tree.selections (route.map (·.branch.id))).result = .ok (route.map Stage.selection) := by
  have hfollow := h.follow usable.distinct []
  rw [List.append_nil] at hfollow
  rw [BranchSet.result_selections, hfollow]
  rfl

theorem transform_failsOnly (usable : a.tree.Usable) (h : a.tree.Route route) (ordinal : Nat) :
    FailsOnly analysisKinds (a.transform ordinal (route.map (·.branch.id))).result := by
  rw [transform]
  split
  · exact failsOnly_ok []
  · rw [Logged.result_bind, selections_route usable h, ok_bind, Logged.result_mapM]
    refine failsOnly_mapM fun group _ => failsOnly_withContext _ ?_
    exact applySelections_failsOnly (usable.fits h) group

/-- The identifiers of a path and of a sample are those of a route. -/
theorem exists_route_of_mem_drafts (usable : a.tree.Usable) {d : Draft} (h : d ∈ a.drafts) :
    ∃ route, a.tree.Route route ∧ d.ids = route.map (·.branch.id) := by
  rw [drafts] at h
  split at h
  · obtain ⟨i, _, rfl⟩ := List.mem_map.mp h
    obtain ⟨route, hroute, hsample⟩ :=
      BranchSet.sample_route usable.wellFormed.populated (seedOf a.settings i)
    refine ⟨route, hroute, ?_⟩
    rw [sampleDraft, sampleIds, hsample, List.map_map]
    rfl
  · obtain ⟨p, hp, rfl⟩ := List.mem_map.mp h
    have hpath := mem_of_mem_reported hp
    obtain ⟨route, hshown⟩ := (Cursor.mem_paths_start usable.wellFormed.populated).mp hpath
    exact ⟨route, hshown.taken, hshown.ids⟩

/-- A run fails as one of its drafts does. -/
theorem run_failure (usable : a.tree.Usable) {f : Failure} (h : a.run.failure = some f) :
    f.kind ∈ analysisKinds := by
  rw [a.run_realizes.2] at h
  obtain ⟨before, d, after, hdrafts, _, _, hfails⟩ := realizeFrom_eq_some h
  have hmem : d ∈ a.drafts := by simp [hdrafts]
  obtain ⟨route, hroute, hids⟩ := exists_route_of_mem_drafts usable hmem
  rw [hids] at hfails
  exact transform_failsOnly usable hroute _ f hfails

/-- An analysis of a tree that was read, for any source groups and settings, completes or fails with
one of three kinds of failures. -/
theorem run_completes_or_refuses {files : Files} {path : String} {tree : LogicTree}
    (read : (LogicTree.read files path).result = .ok tree) (groups : List SourceGroup)
    (settings : Settings) :
    (run ⟨tree, groups, settings⟩).failure = none ∨
      ∃ f, (run ⟨tree, groups, settings⟩).failure = some f ∧
        (f.kind = .illegalOperation ∨ f.kind = .domain ∨ f.kind = .notImplemented) := by
  cases hrun : (run ⟨tree, groups, settings⟩).failure with
  | none => exact Or.inl rfl
  | some f =>
    have hkind := run_failure (LogicTree.usable_of_read read) hrun
    exact Or.inr ⟨f, rfl, by simpa [analysisKinds] using hkind⟩

/-- A law that the changes of the tree below leave in its domain. -/
def gentleLaw : Mfd :=
  .gutenbergRichter { minMag := 5, maxMag := 7, binWidth := 0.1, aValue := 2, bValue := 1 }

def pointGroup (mfd : Option Mfd) : SourceGroup where
  region := "shield"
  name := ""
  sources := [{
    id := "p1", name := "", region := "shield", mfd, scalingRate := 1
    body := .point ⟨0, 0, 0⟩ 0 10 }]
  changes := 0

/-- On the way through one tree a source with a law is changed, and one without is refused. -/
theorem run_completes_or_refuses_points :
    ∃ tree f, (LogicTree.read TreeReading.leftOpen "tree.xml").result = .ok tree ∧
      (run ⟨tree, [pointGroup (some gentleLaw)], .standard⟩).failure = none ∧
      (run ⟨tree, [pointGroup none], .standard⟩).failure = some f ∧
      (f.kind = .illegalOperation ∨ f.kind = .domain ∨ f.kind = .notImplemented) := by
  have hruns : (LogicTree.read TreeReading.leftOpen "tree.xml").result.toOption.map (fun tree =>
      ((run ⟨tree, [pointGroup (some gentleLaw)], .standard⟩).failure,
        (run ⟨tree, [pointGroup none], .standard⟩).failure.map (·.kind))) =
      some (none, some .illegalOperation) := by decide +kernel
  obtain ⟨tree, hread, hfailures⟩ := exists_of_toOption_map hruns
  obtain ⟨hlaw, hnone⟩ := Prod.mk.inj hfailures
  rcases run_completes_or_refuses hread [pointGroup none] .standard with hdone | ⟨f, hf, hkind⟩
  · rw [hdone] at hnone
    cases hnone
  · exact ⟨tree, f, hread, hlaw, hf, hkind⟩

end Analysis

end SeismicTree

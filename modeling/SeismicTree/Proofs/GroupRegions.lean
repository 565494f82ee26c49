import SeismicTree.Proofs.Collapsing
import SeismicTree.Proofs.SourceReading

/-!
# The regions of groups

The sources of a group share its region exactly if no element inside of a group says otherwise: an
element with another region of its own keeps it, in a group that goes by the region around it.
Selections change neither the region of a group nor those of its sources, so a group whose sources
share its region stays one, and nothing mends another.
-/

namespace SeismicTree

/-- All sources of the group are of its region. -/
def SourceGroup.Uniform (g : SourceGroup) : Prop := ∀ s ∈ g.sources, s.region = g.region

instance (g : SourceGroup) : Decidable g.Uniform :=
  inferInstanceAs (Decidable (∀ s ∈ g.sources, s.region = g.region))

section Selections
variable {source : Source} {a : Selection Binary64} {sels : List (Selection Binary64)}

/-- The source has the labels of another: what identifies it and what filters look for. -/
structure Source.LabelledAs (s' s : Source) : Prop where
  id : s'.id = s.id
  name : s'.name = s.name
  region : s'.region = s.region

theorem Selection.settle_labelled {w : Source} (before : w.LabelledAs source) :
    Yields (Source.LabelledAs · source) (a.settle w) := by
  intro w' h
  obtain ⟨_, _, rfl⟩ := Source.settle_eq_ok h
  exact ⟨before.id, before.name, before.region⟩

theorem Selection.copies_labelled {w : Source} (before : w.LabelledAs source) :
    Yields (fun copies => ∀ c ∈ copies, c.LabelledAs source) (a.copies w) := by
  rw [copies]
  split
  · split
    · exact yields_error _
    · refine yields_mapM fun b _ c hc => ?_
      obtain ⟨_, _, rfl⟩ := Source.apply_eq_ok hc
      exact ⟨before.id, before.name, before.region⟩
  · exact yields_ok fun c hc => absurd hc List.not_mem_nil

/-- All that a transformation has led to has the labels of the source. -/
structure Transforming.LabelledAs (t : Transforming) (source : Source) : Prop where
  working : t.working.LabelledAs source
  copies : ∀ c ∈ t.copies, c.LabelledAs source

theorem Transforming.step_labelled {t : Transforming} (before : t.LabelledAs source) :
    Yields (Transforming.LabelledAs · source) (t.step a).result := by
  rw [result_step]
  refine yields_bind (Selection.copies_labelled before.working) fun copies hcopies => ?_
  refine yields_bind (Selection.settle_labelled before.working) fun working hworking => ?_
  exact yields_ok ⟨hworking, List.forall_mem_append.mpr ⟨before.copies, hcopies⟩⟩

theorem Transforming.LabelledAs.results {t : Transforming} (h : t.LabelledAs source) :
    ∀ s ∈ t.results, s.LabelledAs source := by
  rw [Transforming.results]
  split
  · exact List.forall_mem_cons.mpr ⟨h.working, h.copies⟩
  · exact h.copies

theorem Transforming.foldlM_labelled (as : List (Selection Binary64)) (source : Source) :
    Yields (Transforming.LabelledAs · source) (as.foldlM step (start source)).result := by
  have hstart : (Transforming.start source).LabelledAs source :=
    ⟨⟨rfl, rfl, rfl⟩, fun c hc => absurd hc List.not_mem_nil⟩
  rw [Logged.result_foldlM]
  exact yields_foldlM (fun b _ t ht => step_labelled ht) hstart

theorem transformSource_labelled (sels : List (Selection Binary64)) (source : Source) :
    Yields (fun r => ∀ s ∈ r.1, s.LabelledAs source) (transformSource sels source).result := by
  have hself : source.LabelledAs source := ⟨rfl, rfl, rfl⟩
  rw [transformSource, Logged.result_bind]
  refine yields_after fun as => ?_
  cases as with
  | nil => exact yields_ok (List.forall_mem_singleton.mpr hself)
  | cons a as =>
    simp only [Logged.result_bind]
    refine yields_bind (Transforming.foldlM_labelled (a :: as) source) ?_
    exact fun t ht => yields_ok ht.results

/-- Whatever becomes of sources has the labels of one of them. -/
theorem transformSources_labelled (sels : List (Selection Binary64)) (sources : List Source) :
    Yields (fun r => ∀ s' ∈ r.1, ∃ s ∈ sources, s'.LabelledAs s)
      (transformSources sels sources).result := by
  induction sources with
  | nil => exact yields_ok fun s hs => absurd hs List.not_mem_nil
  | cons source sources ih =>
    rw [transformSources, Logged.result_bind]
    refine yields_bind (transformSource_labelled sels source) fun first hfirst => ?_
    rw [Logged.result_bind]
    refine yields_bind ih fun rest hrest => yields_ok (List.forall_mem_append.mpr ⟨?_, ?_⟩)
    · exact fun s' hs' => ⟨source, List.mem_cons_self, hfirst s' hs'⟩
    · intro s' hs'
      obtain ⟨s, hs, hlabels⟩ := hrest s' hs'
      exact ⟨s, List.mem_cons_of_mem source hs, hlabels⟩

theorem applySelections_labelled (sels : List (Selection Binary64)) (g : SourceGroup) :
    Yields (fun g' => g'.region = g.region ∧ ∀ s' ∈ g'.sources, ∃ s ∈ g.sources, s'.LabelledAs s)
      (applySelections sels g).result := by
  rw [applySelections, Logged.result_timed, Logged.result_bind]
  exact yields_bind (transformSources_labelled sels g.sources) fun r hr => yields_ok ⟨rfl, hr⟩

theorem applySelections_uniform {g : SourceGroup} (h : g.Uniform) :
    Yields SourceGroup.Uniform (applySelections sels g).result := by
  intro g' hg' s' hs'
  obtain ⟨hregion, hsources⟩ := applySelections_labelled sels g g' hg'
  obtain ⟨s, hs, hlabels⟩ := hsources s' hs'
  rw [hlabels.region, hregion, h s hs]

end Selections

namespace SourceModel

def Part.Uniform : Part → Prop
  | .group region _ members => ∀ s ∈ members, s.region = region
  | .single _ => True

theorem region_of_mem_singles {region : String} {parts : List Part} :
    ∀ s ∈ singles region parts, s.region = region := by
  induction parts with
  | nil => exact fun s hs => absurd hs List.not_mem_nil
  | cons part parts ih =>
    cases part with
    | group r name members => exact ih
    | single t =>
      rw [singles]
      split
      · exact List.forall_mem_cons.mpr ⟨‹_›, ih⟩
      · exact ih

/-- Sources that join a group are of its region, so a group is uniform if it was listed so. -/
theorem arrange_uniform (earlier : List String) (parts : List Part) :
    (∀ g ∈ arrange earlier parts, g.Uniform) ↔ ∀ part ∈ parts, part.Uniform := by
  induction parts generalizing earlier with
  | nil => simp [arrange]
  | cons part parts ih =>
    rw [List.forall_mem_cons]
    cases part with
    | group r name members =>
      have hfollowers : ∀ s ∈ (if r ∈ earlier then [] else singles r parts), s.region = r := by
        split
        · exact fun s hs => absurd hs List.not_mem_nil
        · exact region_of_mem_singles
      rw [arrange, List.forall_mem_cons, ih]
      refine and_congr_left fun _ => List.forall_mem_append.trans ?_
      exact and_iff_left hfollowers
    | single s =>
      rw [arrange]
      split
      · exact (ih _).trans (and_iff_right trivial).symm
      · rw [List.forall_mem_cons, ih]
        exact and_congr_left fun _ => iff_of_true
          (List.forall_mem_cons.mpr ⟨rfl, region_of_mem_singles⟩) trivial

/-- The region of a source element inside of a group is the one of the group or is not said. -/
def Fits (group e : Element) : Prop :=
  e.attributeText "tectonicRegion" = "" ∨
    e.attributeText "tectonicRegion" = group.attributeText "tectonicRegion"

theorem Describes.fits_iff {group e : Element} {s : Source}
    (h : Describes (group.attributeText "tectonicRegion") e s) :
    s.region = group.attributeText "tectonicRegion" ↔ Fits group e := by
  rw [h.region, regionOf, Fits]
  by_cases hown : e.attributeText "tectonicRegion" = ""
  · simp [hown]
  · simp [hown]

theorem Part.Of.uniform_iff {e : Element} {part : Part} (h : Part.Of e part) :
    part.Uniform ↔ (e.name = "sourceGroup" → ∀ c ∈ e.elements, isSource c = true → Fits e c) := by
  cases part with
  | group region name members =>
    obtain ⟨hname, rfl, _, hmembers⟩ := h
    rw [forall_prop_of_true hname, Part.Uniform,
      ← forall_mem_iff_of_forall₂ hmembers fun c s hcs => hcs.fits_iff.symm]
    simp only [List.mem_filter, and_imp]
  | single s =>
    have hsource := Describes.isSource h
    refine iff_of_true trivial fun hname => ?_
    rw [isSource, hname] at hsource
    cases hsource

/-- The sources of all groups of a model are of the regions of their groups exactly if no element
inside of a group has another region of its own, and selections keep a group that way. -/
theorem read_uniform_iff {files : Files} {path : String} {groups : List SourceGroup}
    (h : (read files path).result = .ok groups) :
    ∃ root model, (files.openExisting .missingInput path).result = .ok root ∧
      modelElement path root = .ok model ∧
      ((∀ g ∈ groups, g.Uniform) ↔ ∀ e ∈ model.elements, e.name = "sourceGroup" →
        ∀ c ∈ e.elements, isSource c = true → Fits e c) ∧
      ∀ g ∈ groups, g.Uniform → ∀ sels,
        Yields SourceGroup.Uniform (applySelections sels g).result := by
  obtain ⟨root, model, parts, p, hroot, hmodel, hparts, hfollows, rfl⟩ := read_eq_ok h
  refine ⟨root, model, hroot, hmodel, ?_, fun g _ hg sels => applySelections_uniform hg⟩
  rw [hfollows.groups, arrange_uniform,
    ← forall_mem_iff_of_forall₂ hparts fun e part hpart => hpart.uniform_iff.symm]
  refine ⟨fun hfits e he hname => ?_, fun hfits e he => hfits e (List.mem_filter.mp he).1⟩
  exact hfits e (List.mem_filter.mpr ⟨he, by simp [counts, hname]⟩) hname

def strayModel : Files := modelOf
  [groupNode 2 "crust" "Active Shallow Crust"
    [pointNode 3 "p1" "Active Shallow Crust", pointNode 10 "p2" "Stable Continental Crust"]]

/-- A source of a group that is of another region than the group. -/
theorem exists_source_of_other_region :
    ∃ groups, (read strayModel "model.xml").result = .ok groups ∧
      ∃ g ∈ groups, ∃ s ∈ g.sources, s.region ≠ g.region := by
  have hread : (read strayModel "model.xml").result.toOption.map
      (fun groups => decide (∃ g ∈ groups, ∃ s ∈ g.sources, s.region ≠ g.region)) = some true := by
    decide +kernel
  obtain ⟨groups, hok, hstray⟩ := exists_of_toOption_map hread
  exact ⟨groups, hok, of_decide_eq_true hstray⟩

/-- The groups of a model are uniform, and one of them still is after three changes. -/
theorem read_uniform_iff_mixedModel :
    ∃ groups root model, (read mixedModel "model.xml").result = .ok groups ∧
      modelElement "model.xml" root = .ok model ∧ (∀ g ∈ groups, g.Uniform) ∧
      (∀ e ∈ model.elements, e.name = "sourceGroup" →
        ∀ c ∈ e.elements, isSource c = true → Fits e c) ∧
      ∃ g ∈ groups, ∃ g', (applySelections [.bounds 7 .empty] g).result = .ok g' ∧
        g'.changes = 3 ∧ g'.Uniform := by
  have hread : (read mixedModel "model.xml").result.toOption.map (fun groups =>
      (decide (∀ g ∈ groups, g.Uniform), decide (∃ g ∈ groups,
        (applySelections [.bounds 7 .empty] g).result.toOption.map (·.changes) = some 3))) =
          some (true, true) := by
    decide +kernel
  obtain ⟨groups, hok, hflags⟩ := exists_of_toOption_map hread
  obtain ⟨huniform, hchanged⟩ := Prod.mk.inj hflags
  obtain ⟨g, hg, happlied⟩ := of_decide_eq_true hchanged
  obtain ⟨g', hg', hchanges⟩ := exists_of_toOption_map happlied
  obtain ⟨root, model, _, hmodel, hiff, hkept⟩ := read_uniform_iff hok
  have hall := of_decide_eq_true huniform
  exact ⟨groups, root, model, hok, hmodel, hall, hiff.mp hall, g, hg, g', hg', hchanges,
    hkept g hg (hall g hg) _ g' hg'⟩

end SourceModel

end SeismicTree

import SeismicTree.Proofs.Domains
import SeismicTree.Proofs.Finiteness
import SeismicTree.Proofs.SourceReading
import SeismicTree.Uncertainty.Application

/-!
# Modified sources and their domains

Two things are followed through the modifications of a source. One is that it has passed all checks:
a modification checks what it changes, so this holds of every source of a model that was read and of
whatever values make of it. The other is that none of its numbers is a NaN: a NaN comes from a text
only, so no modification makes one as long as none was read. Both together keep a source in its
domain.
-/

namespace SeismicTree

section Modifications

def Modification.points : Modification → List Point
  | .ofSource (.setSimpleFault g) => (SourceBody.simpleFault g).points
  | .ofSource (.setComplexFault g) => (SourceBody.complexFault g).points
  | .ofSource (.setSurface s) => (SourceBody.characteristicFault s).points
  | _ => []

theorem Mfd.modify_checked (m : Mfd) (change : MfdChange) :
    Yields Checked (m.modify change) := by
  rw [modify.eq_def]
  split
  · exact gutenbergRichter_checked _
  · exact gutenbergRichter_checked _
  · exact gutenbergRichter_checked _
  · exact gutenbergRichter_checked _
  · exact binned_checked _
  · exact yields_error _

/-- A fault of which a new dip was checked. -/
theorem Source.checkSimpleFault_withDip {g : SimpleFault} {dip : Binary64} {x : Unit}
    (before : checkSimpleFault g = .ok ()) (h : checkDip dip = .ok x) :
    checkSimpleFault { g with dip } = .ok () := by
  rw [checkSimpleFault] at before ⊢
  obtain ⟨htrace, before⟩ := check_eq_ok.mp before
  obtain ⟨_, hdepths, before⟩ := bind_eq_ok.mp before
  obtain ⟨_, _, hspacing⟩ := bind_eq_ok.mp before
  exact check_eq_ok.mpr ⟨htrace, bind_eq_ok.mpr ⟨_, hdepths, bind_eq_ok.mpr ⟨_, h, hspacing⟩⟩⟩

theorem Source.changeBody?_checked {id : String} {b b' : SourceBody} {change : SourceChange}
    (points : ∀ p ∈ b.points, p.Checked) (before : checkBody id b = .ok ())
    (brought : ∀ p ∈ (Modification.ofSource change).points, p.Checked)
    (h : changeBody? b change = some (.ok b')) :
    (∀ p ∈ b'.points, p.Checked) ∧ checkBody id b' = .ok () := by
  unfold changeBody? at h
  split at h
  · obtain ⟨_, hcheck, rfl⟩ := map_eq_ok.mp (Option.some.inj h)
    exact ⟨points, checkSimpleFault_withDip before hcheck⟩
  · obtain ⟨_, hcheck, rfl⟩ := map_eq_ok.mp (Option.some.inj h)
    exact ⟨points, checkSimpleFault_withDip before hcheck⟩
  · obtain ⟨_, hcheck, rfl⟩ := map_eq_ok.mp (Option.some.inj h)
    exact ⟨brought, hcheck⟩
  · obtain ⟨_, hcheck, rfl⟩ := map_eq_ok.mp (Option.some.inj h)
    exact ⟨brought, hcheck⟩
  · cases h
    exact ⟨brought, rfl⟩
  · cases h

/-- A modification that succeeds leaves a checked source. -/
theorem Source.carryOut_checked {s : Source} {m : Modification} (before : s.Checked)
    (brought : ∀ p ∈ m.points, p.Checked) : Yields Checked (s.carryOut m) := by
  intro s' h
  cases m with
  | ofSource change =>
    rw [carryOut, modify] at h
    have h := mapError_eq_ok.mp h
    split at h
    · rename_i body hbody
      obtain ⟨b, rfl, rfl⟩ := map_eq_ok.mp h
      obtain ⟨hpoints, hchecked⟩ := changeBody?_checked before.points before.body brought hbody
      exact ⟨hpoints, hchecked, before.mfd⟩
    · cases h
  | ofMfd change =>
    rw [carryOut, modifyMfd] at h
    split at h
    · obtain ⟨m', hm', rfl⟩ := map_eq_ok.mp h
      refine ⟨before.points, before.body, fun m'' hm'' => ?_⟩
      cases hm''
      exact Mfd.modify_checked _ change m' hm'
    · cases h

/-- What a modification brings with it makes no NaN out of numbers. -/
def Modification.Clean : Modification → Prop
  | .ofSource (.adjustDip d) => d.isFinite = true
  | .ofSource (.setDip dip) => dip.isNaN = false
  | .ofSource (.setSimpleFault g) => Numeric (SourceBody.simpleFault g).measures
  | .ofSource (.setComplexFault g) => Numeric (SourceBody.complexFault g).measures
  | .ofSource (.setSurface s) => Numeric (SourceBody.characteristicFault s).measures
  | .ofMfd (.setAB _ b) => b.isNaN = false
  | .ofMfd (.incrementB d) => d.isFinite = true
  | .ofMfd (.incrementMaxMag d) => d.isFinite = true
  | .ofMfd (.setMaxMag x) => x.isNaN = false
  | .ofMfd (.setRates r) => Numeric r.measures

/-- The numbers of a modified law, once they are known to be numbers. -/
theorem GutenbergRichter.modified_numeric {g : GutenbergRichter} {m : Mfd}
    (h : Mfd.gutenbergRichter <$> g.checked = .ok m) (hmin : g.minMag.isNaN = false)
    (hmax : g.maxMag.isNaN = false) (hbin : g.binWidth.isNaN = false)
    (hb : g.bValue.isNaN = false) : Numeric m.measures := by
  obtain ⟨g', hchecked, rfl⟩ := map_eq_ok.mp h
  rw [checked_eq hchecked]
  simp [Mfd.measures, hmin, hmax, hbin, hb]

theorem Mfd.modify_numeric {m m' : Mfd} {change : MfdChange} (before : Numeric m.measures)
    (clean : (Modification.ofMfd change).Clean) (h : m.modify change = .ok m') :
    Numeric m'.measures := by
  cases m with
  | gutenbergRichter g =>
    simp only [Mfd.measures, numeric_cons] at before
    obtain ⟨hmin, hmax, hbin, hb, _⟩ := before
    cases change with
    | setAB a b => exact GutenbergRichter.modified_numeric h hmin hmax hbin clean
    | incrementB d =>
      exact GutenbergRichter.modified_numeric h hmin hmax hbin
        (Binary64.isNaN_add_of_isFinite hb clean)
    | incrementMaxMag d =>
      exact GutenbergRichter.modified_numeric h hmin
        (Binary64.isNaN_add_of_isFinite hmax clean) hbin hb
    | setMaxMag x => exact GutenbergRichter.modified_numeric h hmin clean hbin hb
    | setRates r => cases h
  | binned r =>
    cases change with
    | setRates r' =>
      obtain ⟨r'', hchecked, rfl⟩ := map_eq_ok.mp h
      rw [BinnedRates.checked_eq hchecked]
      exact clean
    | setAB a b => cases h
    | incrementB d => cases h
    | incrementMaxMag d => cases h
    | setMaxMag x => cases h

/-- A fault whose dip alone has changed. -/
theorem SimpleFault.withDip_numeric {g : SimpleFault} {dip : Binary64}
    (before : Numeric (SourceBody.simpleFault g).measures) (hdip : dip.isNaN = false) :
    Numeric (SourceBody.simpleFault { g with dip }).measures := by
  obtain ⟨hpoints, hparameters⟩ := numeric_append.mp before
  simp only [SourceBody.parameters, numeric_cons] at hparameters
  obtain ⟨hupper, hlower, _, hspacing⟩ := hparameters
  refine numeric_append.mpr ⟨hpoints, ?_⟩
  simp [SourceBody.parameters, hupper, hlower, hdip, hspacing]

theorem SimpleFault.dip_numeric {g : SimpleFault}
    (h : Numeric (SourceBody.simpleFault g).measures) : g.dip.isNaN = false :=
  h _ (List.mem_append_right _ (.tail _ (.tail _ (.head _))))

theorem Source.changeBody?_numeric {b b' : SourceBody} {change : SourceChange}
    (before : Numeric b.measures) (clean : (Modification.ofSource change).Clean)
    (h : changeBody? b change = some (.ok b')) : Numeric b'.measures := by
  unfold changeBody? at h
  split at h
  · obtain ⟨_, _, rfl⟩ := map_eq_ok.mp (Option.some.inj h)
    have hdip := SimpleFault.dip_numeric before
    exact SimpleFault.withDip_numeric before (Binary64.isNaN_add_of_isFinite hdip clean)
  · obtain ⟨_, _, rfl⟩ := map_eq_ok.mp (Option.some.inj h)
    exact SimpleFault.withDip_numeric before clean
  · obtain ⟨_, _, rfl⟩ := map_eq_ok.mp (Option.some.inj h)
    exact clean
  · obtain ⟨_, _, rfl⟩ := map_eq_ok.mp (Option.some.inj h)
    exact clean
  · cases h
    exact clean
  · cases h

/-- A clean modification that succeeds makes no NaN. -/
theorem Source.carryOut_numeric {s : Source} {m : Modification} (before : Numeric s.measures)
    (clean : m.Clean) : Yields (fun s' => Numeric s'.measures) (s.carryOut m) := by
  intro s' h
  obtain ⟨hbody, hmfd⟩ := numeric_append.mp before
  cases m with
  | ofSource change =>
    rw [carryOut, modify] at h
    have h := mapError_eq_ok.mp h
    split at h
    · rename_i body hchange
      obtain ⟨b, rfl, rfl⟩ := map_eq_ok.mp h
      exact numeric_append.mpr ⟨changeBody?_numeric hbody clean hchange, hmfd⟩
    · cases h
  | ofMfd change =>
    rw [carryOut, modifyMfd] at h
    split at h
    · rename_i m hm
      obtain ⟨m', hm', rfl⟩ := map_eq_ok.mp h
      rw [hm] at hmfd
      have hbefore : Numeric m.measures := by simpa using hmfd
      have hafter := Mfd.modify_numeric hbefore clean hm'
      exact numeric_append.mpr ⟨hbody, by simpa using hafter⟩
    · cases h

end Modifications

section Values

/-- The value was read, whatever its type, element and file were. -/
def UncertaintyValue.Accepted (v : UncertaintyValue) : Prop :=
  ∃ u e file, UncertaintyValue.read u e file = .ok v

/-- A number that was read and is no NaN is finite. -/
theorem UncertaintyValue.Accepted.isFinite {x : Binary64}
    (accepted : (UncertaintyValue.number x).Accepted) (hx : x.isNaN = false) :
    x.isFinite = true := by
  obtain ⟨u, e, file, h⟩ := accepted
  rw [read] at h
  split at h
  · rw [readNumber] at h
    split at h
    · rename_i hnumber
      cases h
      rcases Literal.number?_eq_some hnumber with hnan | hfinite
      · rw [hx] at hnan; cases hnan
      · exact hfinite
    · cases h
  · cases h
  · rw [readPair] at h
    split at h <;> cases h
  · obtain ⟨_, _, h⟩ := map_eq_ok.mp h
    cases h
  · obtain ⟨_, _, h⟩ := map_eq_ok.mp h
    cases h
  · obtain ⟨_, _, h⟩ := map_eq_ok.mp h
    cases h
  · rw [readSurface] at h
    split at h
    · cases h
    · obtain ⟨_, _, h⟩ := bind_eq_ok.mp h
      obtain ⟨_, _, h⟩ := bind_eq_ok.mp h
      cases h

/-- A modification brings no points but those of its value. -/
theorem Uncertainty.modification?_points {u : Uncertainty} {v : UncertaintyValue}
    {m : Modification} (h : u.modification? v = some m) : m.points ⊆ v.points := by
  unfold modification? at h
  split at h <;> cases h
  all_goals first | exact List.nil_subset _ | exact List.Subset.refl _

/-- A value that was read, and none of whose numbers is a NaN, modifies a source cleanly. -/
theorem Uncertainty.modification?_clean {u : Uncertainty} {v : UncertaintyValue}
    {m : Modification} (accepted : v.Accepted) (numeric : Numeric v.measures)
    (h : u.modification? v = some m) : m.Clean := by
  have hfinite {x : Binary64} (hv : v = .number x) : x.isFinite = true := by
    subst hv
    exact accepted.isFinite (numeric _ List.mem_cons_self)
  unfold modification? at h
  split at h
  · cases h
    exact hfinite rfl
  · cases h
    exact hfinite rfl
  · cases h
    exact numeric _ List.mem_cons_self
  · cases h
    exact numeric _ List.mem_cons_self
  · cases h
    exact numeric
  · cases h
    exact hfinite rfl
  · cases h
    exact numeric _ List.mem_cons_self
  · cases h
    exact numeric
  · cases h
    exact numeric
  · cases h
    exact numeric
  · cases h

end Values

namespace Source

def applyAll (s : Source) (values : List (Uncertainty × UncertaintyValue)) :
    Except Failure Source :=
  values.foldlM (fun s v => s.apply v.1 v.2) s

/-- What the modification of every value keeps, the application of values keeps. -/
theorem yields_apply {P : Source → Prop} {u : Uncertainty} {v : UncertaintyValue} {s : Source}
    (h : ∀ m, u.modification? v = some m → Yields P (s.carryOut m)) :
    Yields P (s.apply u v) := by
  rw [apply]
  split
  · split
    · exact yields_mapError (h _ ‹_›)
    · exact yields_error _
  · exact yields_error _

theorem applyAll_checked {values : List (Uncertainty × UncertaintyValue)} {s : Source}
    (accepted : ∀ v ∈ values, v.2.Accepted) (before : s.Checked) :
    Yields Checked (s.applyAll values) := by
  refine yields_foldlM (fun v hv s' hs' => yields_apply fun m hm => ?_) before
  obtain ⟨u, e, file, hread⟩ := accepted v hv
  have hpoints := UncertaintyValue.read_checked u e file v.2 hread
  exact carryOut_checked hs' fun p hp => hpoints p (Uncertainty.modification?_points hm hp)

theorem applyAll_numeric {values : List (Uncertainty × UncertaintyValue)} {s : Source}
    (accepted : ∀ v ∈ values, v.2.Accepted) (numeric : ∀ v ∈ values, Numeric v.2.measures)
    (before : Numeric s.measures) :
    Yields (fun last => Numeric last.measures) (s.applyAll values) := by
  refine yields_foldlM (Q := fun last => Numeric last.measures)
    (fun v hv s' hs' => yields_apply fun m hm => ?_) before
  exact carryOut_numeric hs' (Uncertainty.modification?_clean (accepted v hv) (numeric v hv) hm)

end Source

namespace SourceModel

theorem gutenbergRichter_checked (e : Element) : Yields Mfd.Checked (gutenbergRichter e) := by
  refine yields_after fun bValue => yields_after fun aValue => yields_after fun width => ?_
  exact yields_after fun maxMag => yields_after fun minMag => Mfd.gutenbergRichter_checked _

theorem binned_checked (e : Element) : Yields Mfd.Checked (binned e) := by
  refine yields_after fun child => yields_after fun rates => ?_
  exact yields_after fun binWidth => yields_after fun minMag => Mfd.binned_checked _

/-- The distribution of a source element, if it has one, was checked. -/
theorem mfd?_checked (e : Element) :
    Yields (fun found => ∀ m ∈ found, m.Checked) (mfd? e) := by
  have hsome (m : Mfd) (h : m.Checked) : ∀ m' ∈ some m, m'.Checked := by
    intro m' hm'
    cases hm'
    exact h
  rw [mfd?]
  split
  · exact yields_map (gutenbergRichter_checked _) hsome
  · exact yields_map (binned_checked _) hsome
  · exact yields_ok fun m hm => by cases hm

theorem Constructed.checked {s : Source} (h : Constructed s) : s.Checked := by
  obtain ⟨e, region, used, body, hbody, hconstruct⟩ := h
  obtain ⟨described, _⟩ := (construct_eq_ok hbody).mp hconstruct
  obtain ⟨reader, hreader, hread⟩ := described.body
  exact ⟨body_checked hreader e s.body hread, described.checked, mfd?_checked e s.mfd described.mfd⟩

/-- A source of a model, whatever values have been applied to it, is in its domain exactly if none
of its numbers is a NaN, and it stays there as long as no NaN is read. -/
theorem inDomain_iff_numeric {files : Files} {path : String} {groups : List SourceGroup}
    {group : SourceGroup} {source last : Source} {values : List (Uncertainty × UncertaintyValue)}
    (hread : (read files path).result = .ok groups) (hgroup : group ∈ groups)
    (hsource : source ∈ group.sources) (accepted : ∀ v ∈ values, v.2.Accepted)
    (happly : source.applyAll values = .ok last) :
    (last.InDomain ↔ Numeric last.measures) ∧
      (Numeric source.measures → (∀ v ∈ values, Numeric v.2.measures) → last.InDomain) := by
  have hfirst := (read_constructed files path groups hread group hgroup source hsource).checked
  have hlast := Source.applyAll_checked accepted hfirst last happly
  refine ⟨hlast.inDomain_iff, fun hnumeric hvalues => hlast.inDomain ?_⟩
  exact Source.applyAll_numeric accepted hvalues hnumeric last happly

def pointSource (longitude latitude : Binary64) : Source where
  id := "p1"
  name := ""
  region := "Active Shallow Crust"
  mfd := some (.gutenbergRichter
    { minMag := 5, maxMag := 6.5, binWidth := 0.1, aValue := 2, bValue := 1 })
  scalingRate := 1
  body := .point { longitude, latitude, depth := 0 } 0 10

def pointModel (position : String) : Files where
  folder := ""
  entries := [("model.xml", {
    root := some <| .element "sourceModel" 1 []
      [.element "pointSource" 2 [("id", "p1"), ("tectonicRegion", "Active Shallow Crust")]
        [.element "pointGeometry" 3 []
          [.element "Point" 4 [] [.element "pos" 5 [] [.text position]],
            .element "upperSeismoDepth" 6 [] [.text "0"],
            .element "lowerSeismoDepth" 7 [] [.text "10"]],
          .element "truncGutenbergRichterMFD" 8
            [("aValue", "2"), ("bValue", "1"), ("minMag", "5"), ("maxMag", "6.5")] []]]
    named := true
    trouble := none
    messages := [] })]

theorem read_pointModel (position : String) (source : Source)
    (h : (read (pointModel position) "model.xml").result.toOption.map (·.flatMap (·.sources)) =
      some [source]) :
    ∃ groups, (read (pointModel position) "model.xml").result = .ok groups ∧
      ∃ group ∈ groups, source ∈ group.sources := by
  obtain ⟨groups, hread, hsources⟩ := exists_of_toOption_map h
  refine ⟨groups, hread, List.mem_flatMap.mp ?_⟩
  exact hsources ▸ List.mem_singleton_self source

theorem inDomain_iff_numeric_pointModel :
    ∃ groups last, (read (pointModel "10.5 45") "model.xml").result = .ok groups ∧
      (pointSource 10.5 45).applyAll [(.bGRRelative, .number 0.25)] = .ok last ∧
      (∃ group ∈ groups, pointSource 10.5 45 ∈ group.sources) ∧ last.InDomain := by
  obtain ⟨groups, hread, group, hgroup, hsource⟩ :=
    read_pointModel "10.5 45" (pointSource 10.5 45) (by decide +kernel)
  have haccepted : (UncertaintyValue.number 0.25).Accepted :=
    ⟨.bGRRelative, ⟨"", "uncertaintyModel", 1, [], [.text "0.25"]⟩, "tree.xml",
      toOption_eq_some.mp (by decide +kernel)⟩
  obtain ⟨last, happly, _⟩ := exists_of_toOption_map (b := ())
    (x := (pointSource 10.5 45).applyAll [(.bGRRelative, .number 0.25)]) (g := fun _ => ())
    (by decide +kernel)
  refine ⟨groups, last, hread, happly, ⟨group, hgroup, hsource⟩, ?_⟩
  refine (inDomain_iff_numeric hread hgroup hsource ?_ happly).2 (by decide +kernel) ?_
  · exact List.forall_mem_singleton.mpr haccepted
  · exact List.forall_mem_singleton.mpr (by decide +kernel)

/-- A position that starts with a NaN is accepted. -/
theorem exists_source_outside_domain :
    ∃ groups, (read (pointModel "nan 45") "model.xml").result = .ok groups ∧
      ∃ group ∈ groups, ∃ source ∈ group.sources, ¬ source.InDomain := by
  obtain ⟨groups, hread, group, hgroup, hsource⟩ := read_pointModel "nan 45"
    (pointSource (.ofFloat (0 / 0)) 45) (by decide +kernel)
  refine ⟨groups, hread, group, hgroup, _, hsource, fun h => ?_⟩
  have hlongitude := (h.points _ List.mem_cons_self).longitude.2
  exact Binary64.not_le_of_isNaN (by decide +kernel) hlongitude

end SourceModel

end SeismicTree

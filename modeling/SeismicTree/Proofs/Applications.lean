import SeismicTree.Proofs.CheckFailures
import SeismicTree.Proofs.InPlace
import SeismicTree.Proofs.WellFormed

/-!
# What an applied value does to a source

For each type of uncertainty there is one part of a source that its values replace: with what is
given, or with what is there and an increment. A source may have no such part, and the new part may
be outside of its domain. These are the ways in which an application is refused. The checks let a
NaN pass, so for the last of them the numbers of the new part are asked for.
-/

namespace SeismicTree

/-- The part of a source that a value replaces, as it is afterwards. -/
inductive NewPart where
  | dip (dip : Binary64)
  | simpleFault (geometry : SimpleFault)
  | complexFault (geometry : ComplexFault)
  | surface (surface : Surface)
  | law (law : GutenbergRichter)
  | rates (rates : BinnedRates)

namespace NewPart

def InDomain : NewPart → Prop
  | dip x => 0 < x ∧ x ≤ 90
  | simpleFault g => g.InDomain
  | complexFault g => g.InDomain
  | surface _ => True
  | law g => g.InDomain
  | rates r => r.InDomain

/-- The numbers of the part that have a domain. -/
def measures : NewPart → List Binary64
  | dip x => [x]
  | simpleFault g => (SourceBody.simpleFault g).parameters
  | complexFault g => (SourceBody.complexFault g).parameters
  | surface _ => []
  | law g => (Mfd.gutenbergRichter g).measures
  | rates r => r.measures

def check : NewPart → Except Failure Unit
  | dip x => Source.checkDip x
  | simpleFault g => Source.checkSimpleFault g
  | complexFault g => Source.checkComplexFault g
  | surface _ => .ok ()
  | law g => (fun _ => ()) <$> g.checked
  | rates r => (fun _ => ()) <$> r.checked

end NewPart

namespace NewPart
variable {part : NewPart}

/-- A part that may be had passes its check. -/
theorem InDomain.check (h : part.InDomain) : part.check = .ok () := by
  cases part with
  | dip x => exact Source.checkDip_of_mem h
  | simpleFault g => exact SimpleFault.InDomain.check h
  | complexFault g => exact ComplexFault.InDomain.check h
  | surface s => rfl
  | law g => exact map_eq_ok.mpr ⟨g, GutenbergRichter.InDomain.check h, rfl⟩
  | rates r => exact map_eq_ok.mpr ⟨r, BinnedRates.InDomain.check h, rfl⟩

/-- A part that passes its check may be had if none of its numbers is a NaN. -/
theorem inDomain_of_check (h : part.check = .ok ()) (numeric : Numeric part.measures) :
    part.InDomain := by
  cases part with
  | dip x => exact Source.dip_of_check h (numeric_cons.mp numeric).1
  | simpleFault g => exact Source.simpleFault_of_check h numeric
  | complexFault g => exact Source.complexFault_of_check h (numeric_cons.mp numeric).1
  | surface s => trivial
  | law g =>
    obtain ⟨g', hg, _⟩ := map_eq_ok.mp h
    cases GutenbergRichter.checked_eq hg
    exact GutenbergRichter.of_checked hg numeric
  | rates r =>
    obtain ⟨r', hr, _⟩ := map_eq_ok.mp h
    cases BinnedRates.checked_eq hr
    exact BinnedRates.of_checked hr numeric

theorem check_outside (part : NewPart) : FailsWith Failure.OutsideDomain part.check := by
  cases part with
  | dip x => exact Source.checkDip_outside x
  | simpleFault g => exact Source.checkSimpleFault_outside g
  | complexFault g => exact Source.checkComplexFault_outside g
  | surface s => exact failsWith_ok ()
  | law g => exact failsWith_map (GutenbergRichter.checked_outside g)
  | rates r => exact failsWith_map (BinnedRates.checked_outside r)

end NewPart

/-- The value of a type makes the new part of a source, and the source has it and is otherwise as it
was. -/
inductive Revises (s : Source) : Uncertainty → UncertaintyValue → NewPart → Source → Prop where
  | dipBy (d : Binary64) {g : SimpleFault} (h : s.body = .simpleFault g) :
      Revises s .simpleFaultDipRelative (.number d) (.dip (g.dip + d))
        { s with body := .simpleFault { g with dip := g.dip + d } }
  | dipTo (dip : Binary64) {g : SimpleFault} (h : s.body = .simpleFault g) :
      Revises s .simpleFaultDipAbsolute (.number dip) (.dip dip)
        { s with body := .simpleFault { g with dip } }
  | simpleFault (g' : SimpleFault) {g : SimpleFault} (h : s.body = .simpleFault g) :
      Revises s .simpleFaultGeometryAbsolute (.simpleFault g') (.simpleFault g')
        { s with body := .simpleFault g' }
  | complexFault (g' : ComplexFault) {g : ComplexFault} (h : s.body = .complexFault g) :
      Revises s .complexFaultGeometryAbsolute (.complexFault g') (.complexFault g')
        { s with body := .complexFault g' }
  | surface (surface : Surface) {old : Surface} (h : s.body = .characteristicFault old) :
      Revises s .characteristicFaultGeometryAbsolute (.surface surface) (.surface surface)
        { s with body := .characteristicFault surface }
  | abTo (a b : Binary64) {g : GutenbergRichter} (h : s.mfd = some (.gutenbergRichter g)) :
      Revises s .abGRAbsolute (.pair a b) (.law { g with aValue := a, bValue := b })
        { s with mfd := some (.gutenbergRichter { g with aValue := a, bValue := b }) }
  | bBy (d : Binary64) {g : GutenbergRichter} (h : s.mfd = some (.gutenbergRichter g)) :
      Revises s .bGRRelative (.number d) (.law { g with bValue := g.bValue + d })
        { s with mfd := some (.gutenbergRichter { g with bValue := g.bValue + d }) }
  | maxMagBy (d : Binary64) {g : GutenbergRichter} (h : s.mfd = some (.gutenbergRichter g)) :
      Revises s .maxMagGRRelative (.number d) (.law { g with maxMag := g.maxMag + d })
        { s with mfd := some (.gutenbergRichter { g with maxMag := g.maxMag + d }) }
  | maxMagTo (x : Binary64) {g : GutenbergRichter} (h : s.mfd = some (.gutenbergRichter g)) :
      Revises s .maxMagGRAbsolute (.number x) (.law { g with maxMag := x })
        { s with mfd := some (.gutenbergRichter { g with maxMag := x }) }
  | rates (r' : BinnedRates) {r : BinnedRates} (h : s.mfd = some (.binned r)) :
      Revises s .incrementalMFDAbsolute (.rates r') (.rates r')
        { s with mfd := some (.binned r') }

section Revisions
variable {s s' s'' : Source} {u : Uncertainty} {value : UncertaintyValue} {part part' : NewPart}

theorem Revises.applies (h : Revises s u value part s') : u.appliesToSources = true := by
  cases h <;> rfl

/-- A value makes one new part of a source at most. -/
theorem Revises.unique (h : Revises s u value part s') (h' : Revises s u value part' s'') :
    part = part' ∧ s' = s'' := by
  cases h with
  | dipBy d h =>
    cases h' with
    | dipBy _ h' =>
      cases h.symm.trans h'
      exact ⟨rfl, rfl⟩
  | dipTo dip h =>
    cases h' with
    | dipTo _ h' =>
      cases h.symm.trans h'
      exact ⟨rfl, rfl⟩
  | abTo a b h =>
    cases h' with
    | abTo _ _ h' =>
      cases h.symm.trans h'
      exact ⟨rfl, rfl⟩
  | bBy d h =>
    cases h' with
    | bBy _ h' =>
      cases h.symm.trans h'
      exact ⟨rfl, rfl⟩
  | maxMagBy d h =>
    cases h' with
    | maxMagBy _ h' =>
      cases h.symm.trans h'
      exact ⟨rfl, rfl⟩
  | maxMagTo x h =>
    cases h' with
    | maxMagTo _ h' =>
      cases h.symm.trans h'
      exact ⟨rfl, rfl⟩
  | simpleFault g' h => cases h'; exact ⟨rfl, rfl⟩
  | complexFault g' h => cases h'; exact ⟨rfl, rfl⟩
  | surface new h => cases h'; exact ⟨rfl, rfl⟩
  | rates r' h => cases h'; exact ⟨rfl, rfl⟩

/-- What is left as it was, whatever a value does. -/
structure Source.Keeps (s s' : Source) : Prop where
  id : s'.id = s.id
  name : s'.name = s.name
  region : s'.region = s.region
  kind : s'.kind = s.kind
  scalingRate : s'.scalingRate = s.scalingRate

theorem Revises.keeps (h : Revises s u value part s') : s.Keeps s' := by
  cases h with
  | dipBy d h => exact ⟨rfl, rfl, rfl, by simp [Source.kind, h], rfl⟩
  | dipTo dip h => exact ⟨rfl, rfl, rfl, by simp [Source.kind, h], rfl⟩
  | simpleFault g' h => exact ⟨rfl, rfl, rfl, by simp [Source.kind, h], rfl⟩
  | complexFault g' h => exact ⟨rfl, rfl, rfl, by simp [Source.kind, h], rfl⟩
  | surface new h => exact ⟨rfl, rfl, rfl, by simp [Source.kind, h], rfl⟩
  | _ => exact ⟨rfl, rfl, rfl, rfl, rfl⟩

/-- A change of a body that has been checked. -/
theorem Source.apply_ofSource {change : SourceChange} {check : Except Failure Unit}
    {body : SourceBody} (applies : u.appliesToSources = true)
    (hm : u.modification? value = some (.ofSource change))
    (hchange : changeBody? s.body change = some ((fun _ => body) <$> check)) :
    ∃ c, s.apply u value = withContext c ((fun _ => { s with body }) <$> check) := by
  refine ⟨fun c => { c with source := some s.id }, ?_⟩
  rw [apply, if_pos applies, hm]
  simp only [carryOut, modify, hchange]
  cases check <;> rfl

/-- A change of a distribution that has been checked. -/
theorem Source.apply_ofMfd {change : MfdChange} {check : Except Failure Unit} {m m' : Mfd}
    (applies : u.appliesToSources = true) (hm : u.modification? value = some (.ofMfd change))
    (hmfd : s.mfd = some m) (hchange : m.modify change = (fun _ => m') <$> check) :
    ∃ c, s.apply u value = withContext c ((fun _ => { s with mfd := some m' }) <$> check) := by
  refine ⟨fun c => { c with source := some s.id }, ?_⟩
  rw [apply, if_pos applies, hm]
  simp only [carryOut, modifyMfd, hmfd, hchange]
  cases check <;> rfl

theorem GutenbergRichter.map_checked {α : Type} (g : GutenbergRichter)
    (f : GutenbergRichter → α) : f <$> g.checked = (fun _ => f g) <$> (NewPart.law g).check := by
  rw [NewPart.check]
  cases h : g.checked with
  | error e => rfl
  | ok g' =>
    cases checked_eq h
    rfl

theorem BinnedRates.map_checked {α : Type} (r : BinnedRates) (f : BinnedRates → α) :
    f <$> r.checked = (fun _ => f r) <$> (NewPart.rates r).check := by
  rw [NewPart.check]
  cases h : r.checked with
  | error e => rfl
  | ok r' =>
    cases checked_eq h
    rfl

/-- An application comes down to the check of the new part. -/
theorem Revises.apply_eq (h : Revises s u value part s') :
    ∃ c, s.apply u value = withContext c ((fun _ => s') <$> part.check) := by
  cases h with
  | dipBy d h => exact Source.apply_ofSource rfl rfl (by rw [h]; rfl)
  | dipTo dip h => exact Source.apply_ofSource rfl rfl (by rw [h]; rfl)
  | simpleFault g' h => exact Source.apply_ofSource rfl rfl (by rw [h]; rfl)
  | complexFault g' h => exact Source.apply_ofSource rfl rfl (by rw [h]; rfl)
  | surface new h => exact Source.apply_ofSource rfl rfl (by rw [h]; rfl)
  | abTo a b h => exact Source.apply_ofMfd rfl rfl h (GutenbergRichter.map_checked _ _)
  | bBy d h => exact Source.apply_ofMfd rfl rfl h (GutenbergRichter.map_checked _ _)
  | maxMagBy d h => exact Source.apply_ofMfd rfl rfl h (GutenbergRichter.map_checked _ _)
  | maxMagTo x h => exact Source.apply_ofMfd rfl rfl h (GutenbergRichter.map_checked _ _)
  | rates r' h => exact Source.apply_ofMfd rfl rfl h (BinnedRates.map_checked _ _)

end Revisions

section Refusals
variable {s : Source} {u : Uncertainty} {value : UncertaintyValue}

theorem Source.illegal_ofSource {change : SourceChange} (applies : u.appliesToSources = true)
    (hm : u.modification? value = some (.ofSource change))
    (hchange : changeBody? s.body change = none) :
    FailsAs .illegalOperation (s.apply u value) := by
  rw [apply, if_pos applies, hm]
  simp only [carryOut, modify, hchange]
  exact ⟨_, rfl, rfl⟩

/-- The changes of a simple fault are for no other body. -/
theorem Source.changeBody?_of_no_fault {b : SourceBody} (h : ¬ ∃ g, b = .simpleFault g) :
    (∀ d, changeBody? b (.adjustDip d) = none) ∧ (∀ dip, changeBody? b (.setDip dip) = none) ∧
      ∀ g, changeBody? b (.setSimpleFault g) = none := by
  cases b with
  | simpleFault g => exact absurd ⟨g, rfl⟩ h
  | _ => exact ⟨fun _ => rfl, fun _ => rfl, fun _ => rfl⟩

theorem Source.illegal_ofMfd {change : MfdChange} (applies : u.appliesToSources = true)
    (hm : u.modification? value = some (.ofMfd change))
    (hchange : ∀ m ∈ s.mfd, m.modify change = .error (m.unsupported change)) :
    FailsAs .illegalOperation (s.apply u value) := by
  rw [apply, if_pos applies, hm]
  cases hmfd : s.mfd with
  | none =>
    simp only [carryOut, modifyMfd, hmfd]
    exact ⟨_, rfl, rfl⟩
  | some m =>
    simp only [carryOut, modifyMfd, hmfd, hchange m hmfd]
    exact ⟨_, rfl, rfl⟩

theorem Source.illegal_of_no_law {change : MfdChange} (applies : u.appliesToSources = true)
    (hm : u.modification? value = some (.ofMfd change))
    (hchange : ∀ r, (Mfd.binned r).modify change = .error ((Mfd.binned r).unsupported change))
    (hlaw : ¬ ∃ g, s.mfd = some (.gutenbergRichter g)) :
    FailsAs .illegalOperation (s.apply u value) := by
  apply illegal_ofMfd applies hm
  intro m hmem
  cases m with
  | gutenbergRichter g => exact absurd ⟨g, hmem⟩ hlaw
  | binned r => exact hchange r

/-- The source has the part that the values of a type replace. -/
def Source.Supports (s : Source) : Uncertainty → Prop
  | .simpleFaultDipRelative | .simpleFaultDipAbsolute | .simpleFaultGeometryAbsolute =>
    ∃ g, s.body = .simpleFault g
  | .complexFaultGeometryAbsolute => ∃ g, s.body = .complexFault g
  | .characteristicFaultGeometryAbsolute => ∃ surface, s.body = .characteristicFault surface
  | .abGRAbsolute | .bGRRelative | .maxMagGRRelative | .maxMagGRAbsolute =>
    ∃ g, s.mfd = some (.gutenbergRichter g)
  | .incrementalMFDAbsolute => ∃ r, s.mfd = some (.binned r)
  | .unknown | .gmpeModel | .sourceModel | .extendModel => False

theorem Revises.supports {part : NewPart} {s' : Source} (h : Revises s u value part s') :
    s.Supports u := by
  cases h with
  | dipBy d h => exact ⟨_, h⟩
  | dipTo dip h => exact ⟨_, h⟩
  | simpleFault g' h => exact ⟨_, h⟩
  | complexFault g' h => exact ⟨_, h⟩
  | surface new h => exact ⟨_, h⟩
  | abTo a b h => exact ⟨_, h⟩
  | bBy d h => exact ⟨_, h⟩
  | maxMagBy d h => exact ⟨_, h⟩
  | maxMagTo x h => exact ⟨_, h⟩
  | rates r' h => exact ⟨_, h⟩

/-- A value in the form of its type makes a new part of every source that has such a part. -/
theorem Source.Supports.exists_revises (h : s.Supports u) (designated : value.form = u.form) :
    ∃ part s', Revises s u value part s' := by
  cases u with
  | unknown | gmpeModel | sourceModel | extendModel => exact h.elim
  | maxMagGRRelative =>
    obtain ⟨g, h⟩ := h
    cases value with
    | number d => exact ⟨_, _, .maxMagBy d h⟩
    | _ => cases designated
  | bGRRelative =>
    obtain ⟨g, h⟩ := h
    cases value with
    | number d => exact ⟨_, _, .bBy d h⟩
    | _ => cases designated
  | maxMagGRAbsolute =>
    obtain ⟨g, h⟩ := h
    cases value with
    | number x => exact ⟨_, _, .maxMagTo x h⟩
    | _ => cases designated
  | abGRAbsolute =>
    obtain ⟨g, h⟩ := h
    cases value with
    | pair a b => exact ⟨_, _, .abTo a b h⟩
    | _ => cases designated
  | incrementalMFDAbsolute =>
    obtain ⟨r, h⟩ := h
    cases value with
    | rates r' => exact ⟨_, _, .rates r' h⟩
    | _ => cases designated
  | simpleFaultDipRelative =>
    obtain ⟨g, h⟩ := h
    cases value with
    | number d => exact ⟨_, _, .dipBy d h⟩
    | _ => cases designated
  | simpleFaultDipAbsolute =>
    obtain ⟨g, h⟩ := h
    cases value with
    | number dip => exact ⟨_, _, .dipTo dip h⟩
    | _ => cases designated
  | simpleFaultGeometryAbsolute =>
    obtain ⟨g, h⟩ := h
    cases value with
    | simpleFault g' => exact ⟨_, _, .simpleFault g' h⟩
    | _ => cases designated
  | complexFaultGeometryAbsolute =>
    obtain ⟨g, h⟩ := h
    cases value with
    | complexFault g' => exact ⟨_, _, .complexFault g' h⟩
    | _ => cases designated
  | characteristicFaultGeometryAbsolute =>
    obtain ⟨old, h⟩ := h
    cases value with
    | surface new => exact ⟨_, _, .surface new h⟩
    | _ => cases designated

/-- A value is refused by a source that has nothing for it to replace. -/
theorem Source.illegal_of_not_supports (applies : u.appliesToSources = true)
    (h : ¬ s.Supports u) (designated : value.form = u.form) :
    FailsAs .illegalOperation (s.apply u value) := by
  cases u with
  | unknown | gmpeModel | sourceModel | extendModel => cases applies
  | maxMagGRRelative =>
    cases value with
    | number d => exact illegal_of_no_law rfl rfl (fun r => rfl) h
    | _ => cases designated
  | bGRRelative =>
    cases value with
    | number d => exact illegal_of_no_law rfl rfl (fun r => rfl) h
    | _ => cases designated
  | maxMagGRAbsolute =>
    cases value with
    | number x => exact illegal_of_no_law rfl rfl (fun r => rfl) h
    | _ => cases designated
  | abGRAbsolute =>
    cases value with
    | pair a b => exact illegal_of_no_law rfl rfl (fun r => rfl) h
    | _ => cases designated
  | incrementalMFDAbsolute =>
    cases value with
    | rates r' =>
      apply illegal_ofMfd rfl rfl
      intro m hmem
      cases m with
      | gutenbergRichter g => rfl
      | binned r => exact absurd ⟨r, hmem⟩ h
    | _ => cases designated
  | simpleFaultDipRelative =>
    cases value with
    | number d =>
      exact illegal_ofSource rfl rfl ((changeBody?_of_no_fault h).1 d)
    | _ => cases designated
  | simpleFaultDipAbsolute =>
    cases value with
    | number dip =>
      exact illegal_ofSource rfl rfl ((changeBody?_of_no_fault h).2.1 dip)
    | _ => cases designated
  | simpleFaultGeometryAbsolute =>
    cases value with
    | simpleFault g' =>
      exact illegal_ofSource rfl rfl ((changeBody?_of_no_fault h).2.2 g')
    | _ => cases designated
  | complexFaultGeometryAbsolute =>
    cases value with
    | complexFault g' =>
      apply illegal_ofSource rfl rfl
      cases hbody : s.body with
      | complexFault g => exact absurd ⟨g, hbody⟩ h
      | _ => rfl
    | _ => cases designated
  | characteristicFaultGeometryAbsolute =>
    cases value with
    | surface new =>
      apply illegal_ofSource rfl rfl
      cases hbody : s.body with
      | characteristicFault old => exact absurd ⟨old, hbody⟩ h
      | _ => rfl
    | _ => cases designated

end Refusals

section Outcomes
variable {s s' : Source} {u : Uncertainty} {value : UncertaintyValue} {part : NewPart}
  {r : Except Failure Source}

/-- To apply a type that applies to no source misuses the library. -/
theorem Source.logic_of_not_applies (h : u.appliesToSources = false) :
    FailsAs .logic (s.apply u value) := by
  rw [apply, if_neg (by simp [h])]
  exact ⟨_, rfl, rfl⟩

/-- A source has the part that was to be made, or the part is refused by its check. -/
theorem Revises.outcome (h : Revises s u value part s') :
    part.check = .ok () ∧ s.apply u value = .ok s' ∨
      ¬ part.InDomain ∧ FailsAs .domain (s.apply u value) := by
  obtain ⟨c, happly⟩ := h.apply_eq
  cases hcheck : part.check with
  | ok x =>
    rw [hcheck] at happly
    exact Or.inl ⟨rfl, happly⟩
  | error f =>
    rw [hcheck] at happly
    refine Or.inr ⟨fun hpart => ?_, ?_⟩
    · cases hcheck.symm.trans hpart.check
    · rw [happly]
      exact ⟨_, rfl, (part.check_outside f hcheck).kind⟩

/-- What applying a value to a source comes to. A NaN in a part passes the checks of the part; no
more is said of such parts than that they are made or refused. -/
structure Source.Settled (s : Source) (u : Uncertainty) (value : UncertaintyValue)
    (r : Except Failure Source) : Prop where
  logic : FailsAs .logic r ↔ u.appliesToSources = false
  illegal : FailsAs .illegalOperation r ↔ u.appliesToSources = true ∧ ¬ s.Supports u
  revised : ∀ s', r = .ok s' → s.Keeps s' ∧ ∃ part, Revises s u value part s'
  refused : FailsAs .domain r → ∃ part s', Revises s u value part s' ∧ ¬ part.InDomain
  made : ∀ part s', Revises s u value part s' → Numeric part.measures →
    (r = .ok s' ↔ part.InDomain) ∧ (FailsAs .domain r ↔ ¬ part.InDomain)

theorem Source.settled_of_logic (inapplicable : u.appliesToSources = false)
    (h : FailsAs .logic r) : s.Settled u value r where
  logic := by simp [h, inapplicable]
  illegal := by
    constructor
    · intro hillegal
      cases h.unique hillegal
    · rintro ⟨happlies, _⟩
      cases inapplicable.symm.trans happlies
  revised s' hok := by
    rw [hok] at h
    exact absurd h failsAs_ok
  refused hdomain := by cases h.unique hdomain
  made part s' hrevises := by cases inapplicable.symm.trans hrevises.applies

theorem Source.settled_of_illegal (applies : u.appliesToSources = true) (missing : ¬ s.Supports u)
    (h : FailsAs .illegalOperation r) : s.Settled u value r where
  logic := by
    constructor
    · intro hlogic
      cases h.unique hlogic
    · intro hinapplicable
      cases applies.symm.trans hinapplicable
  illegal := by simp [h, applies, missing]
  revised s' hok := by
    rw [hok] at h
    exact absurd h failsAs_ok
  refused hdomain := by cases h.unique hdomain
  made part s' hrevises := absurd hrevises.supports missing

theorem Revises.settled (h : Revises s u value part s') : s.Settled u value (s.apply u value) := by
  have hothers : ¬ FailsAs .logic (s.apply u value) ∧
      ¬ FailsAs .illegalOperation (s.apply u value) := by
    rcases h.outcome with ⟨_, hok⟩ | ⟨_, hdomain⟩
    · simp [hok]
    · exact ⟨fun hlogic => (by cases hdomain.unique hlogic),
        fun hillegal => (by cases hdomain.unique hillegal)⟩
  constructor
  case logic => simp [hothers.1, h.applies]
  case illegal => simp [hothers.2, h.supports]
  case revised =>
    intro s'' hmade
    rcases h.outcome with ⟨_, hok⟩ | ⟨_, hdomain⟩
    · cases hok.symm.trans hmade
      exact ⟨h.keeps, part, h⟩
    · rw [hmade] at hdomain
      exact absurd hdomain failsAs_ok
  case refused =>
    intro hdomain
    rcases h.outcome with ⟨_, hok⟩ | ⟨houtside, _⟩
    · rw [hok] at hdomain
      exact absurd hdomain failsAs_ok
    · exact ⟨part, s', h, houtside⟩
  case made =>
    intro part' s'' hrevises hnumeric
    obtain ⟨rfl, rfl⟩ := h.unique hrevises
    rcases h.outcome with ⟨hcheck, hok⟩ | ⟨houtside, f, herror, hkind⟩
    · have hpart := NewPart.inDomain_of_check hcheck hnumeric
      simp [hok, hpart]
    · simp [herror, hkind, houtside]

/-- A value in the form of its type replaces the part of a source that it is for, and nothing else,
or it leaves the source as it was. It fails for a type that applies to no source, for a source
without such a part, and for a part outside of its domain. -/
theorem Source.apply_settled (designated : value.form = u.form) :
    s.Settled u value (s.apply u value) ∧
      (applyInPlace u value).run s = Changing.settle s (s.apply u value) := by
  refine ⟨?_, run_applyInPlace u value s⟩
  by_cases happlies : u.appliesToSources = true
  · by_cases hsupports : s.Supports u
    · obtain ⟨part, s', hrevises⟩ := hsupports.exists_revises designated
      exact hrevises.settled
    · exact settled_of_illegal happlies hsupports
        (illegal_of_not_supports happlies hsupports designated)
  · have hinapplicable : u.appliesToSources = false := by simpa using happlies
    exact settled_of_logic hinapplicable (logic_of_not_applies hinapplicable)

def thrust : Source where
  id := "f1"
  name := "Thrust"
  region := "Active Shallow Crust"
  mfd := some (.gutenbergRichter
    { minMag := 5, maxMag := 6.5, binWidth := 0.1, aValue := 2, bValue := 1 })
  scalingRate := 1
  body := .simpleFault
    { trace := ⟨[⟨0, 0, 0⟩, ⟨1, 1, 0⟩], by simp⟩, upperDepth := 0, lowerDepth := 10, dip := 60
      spacing := 1 }

theorem Source.apply_settled_tooSteep :
    FailsAs .domain (thrust.apply .simpleFaultDipRelative (.number 40)) ∧
      ((applyInPlace .simpleFaultDipRelative (.number 40)).run thrust).2 = thrust := by
  obtain ⟨hsettled, hrun⟩ := @apply_settled thrust .simpleFaultDipRelative (.number 40) rfl
  have hsteep : ¬ ((0 : Binary64) < 60 + 40 ∧ (60 + 40 : Binary64) ≤ 90) := by decide +kernel
  have hdomain := (hsettled.made _ _ (.dipBy 40 rfl) (by decide +kernel)).2.mpr hsteep
  obtain ⟨f, hfails, hkind⟩ := hdomain
  rw [hrun, hfails]
  exact ⟨⟨f, rfl, hkind⟩, rfl⟩

/-- A dip that is not a number is outside of its domain, and it is accepted. -/
theorem Source.exists_part_outside_accepted :
    (∃ part s', Revises thrust .simpleFaultDipAbsolute (.number (.ofFloat (0 / 0))) part s' ∧
      ¬ part.InDomain) ∧
      ¬ FailsAs .domain (thrust.apply .simpleFaultDipAbsolute (.number (.ofFloat (0 / 0)))) := by
  constructor
  · refine ⟨_, _, .dipTo (.ofFloat (0 / 0)) rfl, fun h => ?_⟩
    exact Binary64.not_le_of_isNaN (by decide +kernel) h.2
  · rintro ⟨f, hfails, _⟩
    cases hfails

end Outcomes

end SeismicTree

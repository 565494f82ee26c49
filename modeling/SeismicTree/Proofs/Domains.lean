import SeismicTree.Proofs.GeometryPoints
import SeismicTree.Proofs.NumberOrder

/-!
# Domains of model values

Every check of a model value refuses what lies outside of a domain, and a NaN lies nowhere. So a
source that has passed all checks is in its domain exactly if none of its numbers is a NaN.
-/

namespace SeismicTree

def Numeric (xs : List Binary64) : Prop := ∀ x ∈ xs, x.isNaN = false

instance (xs : List Binary64) : Decidable (Numeric xs) :=
  inferInstanceAs (Decidable (∀ x ∈ xs, x.isNaN = false))

section Numeric
variable {x : Binary64} {xs ys : List Binary64}

@[simp] theorem numeric_nil : Numeric [] := List.forall_mem_nil _

@[simp] theorem numeric_cons : Numeric (x :: xs) ↔ x.isNaN = false ∧ Numeric xs :=
  List.forall_mem_cons

@[simp] theorem numeric_append : Numeric (xs ++ ys) ↔ Numeric xs ∧ Numeric ys :=
  List.forall_mem_append

/-- The numbers of parts are numbers if those of each part are. -/
theorem numeric_flatMap {α : Type} {f : α → List Binary64} {as : List α} :
    Numeric (as.flatMap f) ↔ ∀ a ∈ as, Numeric (f a) := by
  constructor
  · exact fun h a ha x hx => h x (List.mem_flatMap.mpr ⟨a, ha, hx⟩)
  · intro h x hx
    obtain ⟨a, ha, hx⟩ := List.mem_flatMap.mp hx
    exact h a ha x hx

end Numeric

section Domains

structure Point.InDomain (p : Point) : Prop where
  longitude : -180 ≤ p.longitude ∧ p.longitude ≤ 180
  latitude : -90 ≤ p.latitude ∧ p.latitude ≤ 90
  depth : p.depth < earthRadius

structure SimpleFault.InDomain (g : SimpleFault) : Prop where
  trace : 2 ≤ g.trace.size
  depths : 0 ≤ g.upperDepth ∧ g.upperDepth < g.lowerDepth
  dip : 0 < g.dip ∧ g.dip ≤ 90
  spacing : 0 < g.spacing

structure ComplexFault.InDomain (g : ComplexFault) : Prop where
  edges : 2 ≤ g.edges.length
  spacing : 0 < g.spacing

/-- What is particular to a kind of source is in its domain; points are looked at elsewhere. -/
def SourceBody.InDomain : SourceBody → Prop
  | .point _ upper lower => 0 ≤ upper ∧ upper < lower
  | .area _ upper lower discretization => (0 ≤ upper ∧ upper < lower) ∧ 0 < discretization
  | .simpleFault g => g.InDomain
  | .complexFault g => g.InDomain
  | .characteristicFault _ => True

structure GutenbergRichter.InDomain (g : GutenbergRichter) : Prop where
  binWidth : 0 < g.binWidth
  magnitudes : 0 ≤ g.minMag ∧ g.minMag < g.maxMag
  bValue : 0 < g.bValue

structure BinnedRates.InDomain (r : BinnedRates) : Prop where
  binWidth : 0 < r.binWidth
  nonempty : r.rates ≠ []
  rates : ∀ x ∈ r.rates, 0 ≤ x

def Mfd.InDomain : Mfd → Prop
  | .gutenbergRichter g => g.InDomain
  | .binned r => r.InDomain

structure Source.InDomain (s : Source) : Prop where
  points : ∀ p ∈ s.body.points, p.InDomain
  body : s.body.InDomain
  mfd : ∀ m ∈ s.mfd, m.InDomain

end Domains

section Measures

def Point.coordinates (p : Point) : List Binary64 := [p.longitude, p.latitude, p.depth]

/-- The numbers that have a domain and are particular to a kind of source. -/
def SourceBody.parameters : SourceBody → List Binary64
  | .point _ upper lower => [upper, lower]
  | .area _ upper lower discretization => [upper, lower, discretization]
  | .simpleFault g => [g.upperDepth, g.lowerDepth, g.dip, g.spacing]
  | .complexFault g => [g.spacing]
  | .characteristicFault _ => []

def SourceBody.measures (b : SourceBody) : List Binary64 :=
  b.points.flatMap Point.coordinates ++ b.parameters

def BinnedRates.measures (r : BinnedRates) : List Binary64 := r.binWidth :: r.rates

def Mfd.measures : Mfd → List Binary64
  | .gutenbergRichter g => [g.minMag, g.maxMag, g.binWidth, g.bValue]
  | .binned r => r.measures

def Source.measures (s : Source) : List Binary64 :=
  s.body.measures ++ s.mfd.toList.flatMap Mfd.measures

/-- The numbers of a value that get into the domains of a source. -/
def UncertaintyValue.measures : UncertaintyValue → List Binary64
  | .number x => [x]
  | .pair _ b => [b]
  | .rates r => r.measures
  | .simpleFault g => (SourceBody.simpleFault g).measures
  | .complexFault g => (SourceBody.complexFault g).measures
  | .surface s => (SourceBody.characteristicFault s).measures
  | .model _ => []

end Measures

section Checks

def Mfd.Checked : Mfd → Prop
  | .gutenbergRichter g => g.checked = .ok g
  | .binned r => r.checked = .ok r

structure Source.Checked (s : Source) : Prop where
  points : ∀ p ∈ s.body.points, p.Checked
  body : checkBody s.id s.body = .ok ()
  mfd : ∀ m ∈ s.mfd, m.Checked

/-- A law passes its check as it is. -/
theorem GutenbergRichter.checked_eq {g g' : GutenbergRichter} (h : g.checked = .ok g') :
    g' = g := by
  simp only [checked, check_eq_ok] at h
  exact (Except.ok.inj h.2.2.2).symm

theorem BinnedRates.checked_eq {r r' : BinnedRates} (h : r.checked = .ok r') : r' = r := by
  simp only [checked, check_eq_ok] at h
  exact (Except.ok.inj h.2.2.2).symm

theorem Point.Checked.inDomain {p : Point} (h : p.Checked) (numeric : Numeric p.coordinates) :
    p.InDomain := by
  simp only [coordinates, numeric_cons] at numeric
  obtain ⟨hlongitude, hlatitude, hdepth, _⟩ := numeric
  obtain ⟨hx, hy, hz, _⟩ := make_eq_ok.mp h
  obtain ⟨hwest, heast⟩ := not_or.mp hx
  obtain ⟨hsouth, hnorth⟩ := not_or.mp hy
  refine ⟨⟨?_, ?_⟩, ⟨?_, ?_⟩, ?_⟩
  · exact Binary64.le_of_not_lt hlongitude (by decide +kernel) hwest
  · exact Binary64.le_of_not_lt (by decide +kernel) hlongitude heast
  · exact Binary64.le_of_not_lt hlatitude (by decide +kernel) hsouth
  · exact Binary64.le_of_not_lt (by decide +kernel) hlatitude hnorth
  · exact Binary64.lt_of_not_le (by decide +kernel) hdepth hz

theorem Point.inDomain_of_checked {points : List Point} (h : ∀ p ∈ points, p.Checked)
    (numeric : Numeric (points.flatMap Point.coordinates)) : ∀ p ∈ points, p.InDomain :=
  fun p hp => (h p hp).inDomain (numeric_flatMap.mp numeric p hp)

theorem Binary64.pos_of_not_le {x : Binary64} (hx : x.isNaN = false) (h : ¬ x ≤ 0) : 0 < x :=
  Binary64.lt_of_not_le hx (by decide +kernel) h

theorem Binary64.nonneg_of_not_lt {x : Binary64} (hx : x.isNaN = false) (h : ¬ x < 0) : 0 ≤ x :=
  Binary64.le_of_not_lt hx (by decide +kernel) h

namespace Source
variable {x : Unit}

theorem depths_of_check {upper lower : Binary64} (h : checkDepths upper lower = .ok x)
    (hupper : upper.isNaN = false) (hlower : lower.isNaN = false) :
    0 ≤ upper ∧ upper < lower := by
  obtain ⟨hnegative, horder⟩ := not_or.mp (guard_eq_ok.mp h)
  exact ⟨Binary64.nonneg_of_not_lt hupper hnegative, Binary64.lt_of_not_le hlower hupper horder⟩

theorem dip_of_check {dip : Binary64} (h : checkDip dip = .ok x) (hdip : dip.isNaN = false) :
    0 < dip ∧ dip ≤ 90 := by
  obtain ⟨hzero, hsteep⟩ := not_or.mp (guard_eq_ok.mp h)
  exact ⟨Binary64.pos_of_not_le hdip hzero,
    Binary64.le_of_not_lt (by decide +kernel) hdip hsteep⟩

theorem simpleFault_of_check {g : SimpleFault} (h : checkSimpleFault g = .ok x)
    (numeric : Numeric (SourceBody.simpleFault g).parameters) : g.InDomain := by
  simp only [SourceBody.parameters, numeric_cons] at numeric
  obtain ⟨hupper, hlower, hdip, hspacing, _⟩ := numeric
  rw [checkSimpleFault] at h
  obtain ⟨htrace, h⟩ := check_eq_ok.mp h
  obtain ⟨_, hdepths, h⟩ := bind_eq_ok.mp h
  obtain ⟨_, hangle, h⟩ := bind_eq_ok.mp h
  exact ⟨Nat.not_lt.mp htrace, depths_of_check hdepths hupper hlower, dip_of_check hangle hdip,
    Binary64.pos_of_not_le hspacing (guard_eq_ok.mp h)⟩

theorem complexFault_of_check {g : ComplexFault} (h : checkComplexFault g = .ok x)
    (hspacing : g.spacing.isNaN = false) : g.InDomain := by
  rw [checkComplexFault] at h
  obtain ⟨hedges, h⟩ := check_eq_ok.mp h
  exact ⟨Nat.not_lt.mp hedges, Binary64.pos_of_not_le hspacing (guard_eq_ok.mp h)⟩

/-- What has passed the check of its kind is in its domain. -/
theorem body_of_check {id : String} {b : SourceBody} (h : checkBody id b = .ok x)
    (numeric : Numeric b.parameters) : b.InDomain := by
  cases b with
  | point location upper lower =>
    simp only [SourceBody.parameters, numeric_cons] at numeric
    exact depths_of_check h numeric.1 numeric.2.1
  | area polygon upper lower discretization =>
    simp only [SourceBody.parameters, numeric_cons] at numeric
    obtain ⟨hupper, hlower, hdiscretization, _⟩ := numeric
    rw [checkBody, checkArea] at h
    obtain ⟨_, h⟩ := check_eq_ok.mp h
    obtain ⟨_, hdepths, h⟩ := bind_eq_ok.mp h
    obtain ⟨_, h⟩ := check_eq_ok.mp h
    refine ⟨depths_of_check hdepths hupper hlower, ?_⟩
    exact Binary64.pos_of_not_le hdiscretization fun hzero => by
      rw [if_pos hzero] at h
      cases h
  | simpleFault g => exact simpleFault_of_check h numeric
  | complexFault g => exact complexFault_of_check h (numeric _ List.mem_cons_self)
  | characteristicFault s => trivial

end Source

theorem GutenbergRichter.of_checked {g : GutenbergRichter} (h : g.checked = .ok g)
    (numeric : Numeric (Mfd.gutenbergRichter g).measures) : g.InDomain := by
  simp only [checked, check_eq_ok] at h
  obtain ⟨hwidth, hrange, hb, _⟩ := h
  obtain ⟨hnegative, horder⟩ := not_or.mp hrange
  simp only [Mfd.measures, numeric_cons] at numeric
  obtain ⟨hmin, hmax, hbin, hvalue, _⟩ := numeric
  exact ⟨Binary64.pos_of_not_le hbin hwidth,
    ⟨Binary64.nonneg_of_not_lt hmin hnegative, Binary64.lt_of_not_le hmax hmin horder⟩,
    Binary64.pos_of_not_le hvalue hb⟩

theorem BinnedRates.of_checked {r : BinnedRates} (h : r.checked = .ok r)
    (numeric : Numeric r.measures) : r.InDomain := by
  simp only [checked, check_eq_ok] at h
  obtain ⟨hwidth, hempty, hnegative, _⟩ := h
  obtain ⟨hbin, hrates⟩ := numeric_cons.mp numeric
  refine ⟨Binary64.pos_of_not_le hbin hwidth, by simpa using hempty, fun x hx => ?_⟩
  refine Binary64.nonneg_of_not_lt (hrates x hx) fun hlt => hnegative ?_
  exact List.any_eq_true.mpr ⟨x, hx, decide_eq_true hlt⟩

theorem Mfd.gutenbergRichter_checked (g : GutenbergRichter) :
    Yields Checked (gutenbergRichter <$> g.checked) := by
  intro m h
  obtain ⟨g', hg, rfl⟩ := map_eq_ok.mp h
  cases GutenbergRichter.checked_eq hg
  exact hg

theorem Mfd.binned_checked (r : BinnedRates) : Yields Checked (binned <$> r.checked) := by
  intro m h
  obtain ⟨r', hr, rfl⟩ := map_eq_ok.mp h
  cases BinnedRates.checked_eq hr
  exact hr

theorem Mfd.Checked.inDomain {m : Mfd} (h : m.Checked) (numeric : Numeric m.measures) :
    m.InDomain := by
  cases m with
  | gutenbergRichter g => exact GutenbergRichter.of_checked h numeric
  | binned r => exact BinnedRates.of_checked h numeric

/-- A checked source is in its domain if none of its numbers is a NaN. -/
theorem Source.Checked.inDomain {s : Source} (h : s.Checked) (numeric : Numeric s.measures) :
    s.InDomain := by
  obtain ⟨hbody, hmfd⟩ := numeric_append.mp numeric
  obtain ⟨hpoints, hparameters⟩ := numeric_append.mp hbody
  refine ⟨Point.inDomain_of_checked h.points hpoints, body_of_check h.body hparameters, ?_⟩
  exact fun m hm => (h.mfd m hm).inDomain (numeric_flatMap.mp hmfd m (Option.mem_toList.mpr hm))

end Checks

section Passing
variable {x : Binary64}

theorem Source.checkDip_of_mem (h : 0 < x ∧ x ≤ 90) : checkDip x = .ok () :=
  guard_eq_ok.mpr (not_or.mpr ⟨Binary64.not_le_of_lt h.1, Binary64.not_lt_of_le h.2⟩)

theorem Source.checkDepths_of_lt {upper lower : Binary64} (h : 0 ≤ upper ∧ upper < lower) :
    checkDepths upper lower = .ok () :=
  guard_eq_ok.mpr (not_or.mpr ⟨Binary64.not_lt_of_le h.1, Binary64.not_le_of_lt h.2⟩)

theorem Source.checkSpacing_of_pos (h : 0 < x) : checkSpacing x = .ok () :=
  guard_eq_ok.mpr (Binary64.not_le_of_lt h)

theorem SimpleFault.InDomain.check {g : SimpleFault} (h : g.InDomain) :
    Source.checkSimpleFault g = .ok () := by
  rw [Source.checkSimpleFault]
  refine check_eq_ok.mpr ⟨Nat.not_lt.mpr h.trace, ?_⟩
  refine bind_eq_ok.mpr ⟨_, Source.checkDepths_of_lt h.depths, ?_⟩
  exact bind_eq_ok.mpr ⟨_, Source.checkDip_of_mem h.dip, Source.checkSpacing_of_pos h.spacing⟩

theorem ComplexFault.InDomain.check {g : ComplexFault} (h : g.InDomain) :
    Source.checkComplexFault g = .ok () := by
  rw [Source.checkComplexFault]
  exact check_eq_ok.mpr ⟨Nat.not_lt.mpr h.edges, Source.checkSpacing_of_pos h.spacing⟩

theorem GutenbergRichter.InDomain.check {g : GutenbergRichter} (h : g.InDomain) :
    g.checked = .ok g := by
  simp only [checked, check_eq_ok]
  exact ⟨Binary64.not_le_of_lt h.binWidth,
    not_or.mpr ⟨Binary64.not_lt_of_le h.magnitudes.1, Binary64.not_le_of_lt h.magnitudes.2⟩,
    Binary64.not_le_of_lt h.bValue, rfl⟩

theorem BinnedRates.InDomain.check {r : BinnedRates} (h : r.InDomain) : r.checked = .ok r := by
  simp only [checked, check_eq_ok]
  refine ⟨Binary64.not_le_of_lt h.binWidth, by simpa using h.nonempty, fun hany => ?_, rfl⟩
  obtain ⟨y, hy, hnegative⟩ := List.any_eq_true.mp hany
  exact Binary64.not_lt_of_le (h.rates y hy) (of_decide_eq_true hnegative)

end Passing

section Numbers

/-- What lies in a domain is no NaN. -/
theorem Point.InDomain.numeric {p : Point} (h : p.InDomain) : Numeric p.coordinates := by
  have hlongitude := (Binary64.not_isNaN_of_le h.longitude.1).2
  have hlatitude := (Binary64.not_isNaN_of_le h.latitude.1).2
  have hdepth := (Binary64.not_isNaN_of_lt h.depth).1
  simp [coordinates, hlongitude, hlatitude, hdepth]

theorem SourceBody.InDomain.numeric {b : SourceBody} (h : b.InDomain) : Numeric b.parameters := by
  cases b with
  | point location upper lower =>
    have hdepths := Binary64.not_isNaN_of_lt h.2
    simp [parameters, hdepths]
  | area polygon upper lower discretization =>
    have hdepths := Binary64.not_isNaN_of_lt h.1.2
    have hdiscretization := (Binary64.not_isNaN_of_lt h.2).2
    simp [parameters, hdepths, hdiscretization]
  | simpleFault g =>
    have hdepths := Binary64.not_isNaN_of_lt h.depths.2
    have hdip := (Binary64.not_isNaN_of_lt h.dip.1).2
    have hspacing := (Binary64.not_isNaN_of_lt h.spacing).2
    simp [parameters, hdepths, hdip, hspacing]
  | complexFault g =>
    have hspacing := (Binary64.not_isNaN_of_lt h.spacing).2
    simp [parameters, hspacing]
  | characteristicFault s => exact numeric_nil

theorem Mfd.InDomain.numeric {m : Mfd} (h : m.InDomain) : Numeric m.measures := by
  cases m with
  | gutenbergRichter g =>
    have hmagnitudes := Binary64.not_isNaN_of_lt h.magnitudes.2
    have hwidth := (Binary64.not_isNaN_of_lt h.binWidth).2
    have hb := (Binary64.not_isNaN_of_lt h.bValue).2
    simp [measures, hmagnitudes, hwidth, hb]
  | binned r =>
    have hwidth := (Binary64.not_isNaN_of_lt h.binWidth).2
    exact numeric_cons.mpr ⟨hwidth, fun x hx => (Binary64.not_isNaN_of_le (h.rates x hx)).2⟩

/-- The numbers of a source in its domain are numbers. -/
theorem Source.InDomain.numeric {s : Source} (h : s.InDomain) : Numeric s.measures := by
  have hpoints := numeric_flatMap.mpr fun p hp => (h.points p hp).numeric
  have hmfd := numeric_flatMap.mpr fun m hm => (h.mfd m (Option.mem_toList.mp hm)).numeric
  exact numeric_append.mpr ⟨numeric_append.mpr ⟨hpoints, h.body.numeric⟩, hmfd⟩

theorem Source.Checked.inDomain_iff {s : Source} (h : s.Checked) :
    s.InDomain ↔ Numeric s.measures :=
  ⟨Source.InDomain.numeric, h.inDomain⟩

end Numbers

end SeismicTree

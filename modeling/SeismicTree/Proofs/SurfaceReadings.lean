import SeismicTree.Proofs.SourceReading
import SeismicTree.Uncertainty.Reading

/-!
# Surfaces of values and of sources

The surface of a characteristic fault is read in two places: as a value of a branch, and as the body
of a source. A source has a default for the spacing of a mesh and a value has none. Where every
geometry says its spacing, each of the readers takes what the other takes, and makes the same surface
of it. Failures are not compared: a value reports most of them as faults of the tree.
-/

namespace SeismicTree

namespace Geometry

def surfaceNames : List String := ["simpleFaultGeometry", "complexFaultGeometry", "planarSurface"]

section Spaced
variable {e : Element} (spaced : e.attributeText "spacing" ≠ "") (fallback : Option Binary64)
include spaced

/-- A spacing that is said leaves nothing to a default. -/
theorem spacing_of_spaced : spacing e fallback = spacing e none := by
  rw [spacing, spacing, Element.attributeAs, if_neg spaced]
  cases Readable.read Binary64 (e.attributeText "spacing") with
  | error f => rfl
  | ok x => rfl

theorem simpleFault_of_spaced : simpleFault e fallback = simpleFault e none := by
  rw [simpleFault, simpleFault, spacing_of_spaced spaced]

theorem complexFault_of_spaced : complexFault e fallback = complexFault e none := by
  rw [complexFault, complexFault, spacing_of_spaced spaced]

theorem planarSurface_of_spaced : planarSurface e fallback = planarSurface e none := by
  rw [planarSurface, planarSurface, spacing_of_spaced spaced]

end Spaced

/-- The element says its spacing if it is to be read as a part of a surface. -/
def Spaced (e : Element) : Prop := e.name ∈ surfaceNames → e.attributeText "spacing" ≠ ""

instance (e : Element) : Decidable (Spaced e) := inferInstanceAs (Decidable (_ → _))

theorem singleSurface?_of_spaced {e : Element} (h : Spaced e) (fallback : Option Binary64) :
    singleSurface? e fallback = singleSurface? e none := by
  by_cases hname : e.name ∈ surfaceNames
  · rw [singleSurface?, singleSurface?, simpleFault_of_spaced (h hname),
      complexFault_of_spaced (h hname), planarSurface_of_spaced (h hname)]
  · simp only [surfaceNames, List.mem_cons, List.not_mem_nil, or_false, not_or] at hname
    simp only [singleSurface?, hname, if_false]

end Geometry

namespace Surface

/-- The surface is its only part, or the composite of its parts if there are several. -/
structure Joins (surface : Surface) (parts : List SingleSurface) : Prop where
  nonempty : parts ≠ []
  one : ∀ part, parts = [part] → surface = single part
  several : ∀ two_le : 2 ≤ parts.length, surface = multi ⟨parts, two_le⟩

theorem joins_cons_iff {surface : Surface} {first : SingleSurface} {more : List SingleSurface} :
    surface.Joins (first :: more) ↔ surface = assemble first more := by
  cases more with
  | nil =>
    constructor
    · exact fun h => h.one first rfl
    · rintro rfl
      refine ⟨List.cons_ne_nil _ _, fun part hpart => ?_, fun h => by simp at h⟩
      cases hpart
      rfl
  | cons second more =>
    constructor
    · exact fun h => h.several (Nat.le_add_left 2 more.length)
    · rintro rfl
      exact ⟨List.cons_ne_nil _ _, fun part h => by simp at h, fun _ => rfl⟩

/-- The surface is what the geometries of an element join to, each read with the same default. -/
def Of (fallback : Option Binary64) (e : Element) (surface : Surface) : Prop :=
  ∃ c parts, e.child? "surface" = some c ∧ surface.Joins parts ∧
    List.Forall₂ (fun g part => Geometry.singleSurface? g fallback = .ok (some part))
      c.elements parts

/-- The geometries of the surface of an element say their spacings. -/
def Spaced (e : Element) : Prop :=
  ∀ c, e.child? "surface" = some c → ∀ g ∈ c.elements, Geometry.Spaced g

theorem forall₂_iff_of_mem {α β : Type} {R S : α → β → Prop} {as : List α} {bs : List β}
    (h : ∀ a ∈ as, ∀ b, R a b ↔ S a b) : List.Forall₂ R as bs ↔ List.Forall₂ S as bs := by
  induction as generalizing bs with
  | nil => rw [List.forall₂_nil_left_iff, List.forall₂_nil_left_iff]
  | cons a as ih =>
    obtain ⟨ha, has⟩ := List.forall_mem_cons.mp h
    cases bs with
    | nil => simp
    | cons b bs => rw [List.forall₂_cons, List.forall₂_cons, ha, ih has]

/-- A default does not matter where every geometry says its spacing. -/
theorem of_iff_of_spaced {e : Element} (spaced : Spaced e) {fallback : Option Binary64}
    {surface : Surface} : Of fallback e surface ↔ Of none e surface := by
  refine exists_congr fun c => exists_congr fun parts => ?_
  refine and_congr_right fun hc => and_congr_right fun _ => forall₂_iff_of_mem fun g hg part => ?_
  rw [Geometry.singleSurface?_of_spaced (spaced c hc g hg)]

/-- A reader of single parts reads the surface as a list of them. -/
theorem of_iff_mapM {e : Element} {fallback : Option Binary64} {surface : Surface}
    {part : Element → Except Failure SingleSurface}
    (hpart : ∀ g p, part g = .ok p ↔ Geometry.singleSurface? g fallback = .ok (some p)) :
    Of fallback e surface ↔ ∃ c first more, e.child? "surface" = some c ∧
      c.elements.mapM part = .ok (first :: more) ∧ surface = assemble first more := by
  constructor
  · rintro ⟨c, parts, hc, hjoins, hall⟩
    obtain ⟨first, more, rfl⟩ := List.exists_cons_of_ne_nil hjoins.nonempty
    refine ⟨c, first, more, hc, mapM_eq_ok_of_forall₂ ?_, joins_cons_iff.mp hjoins⟩
    exact hall.imp fun g p => (hpart g p).mpr
  · rintro ⟨c, first, more, hc, hread, hsurface⟩
    refine ⟨c, first :: more, hc, joins_cons_iff.mpr hsurface, ?_⟩
    exact (mapM_eq_ok hread).imp fun g p => (hpart g p).mp

end Surface

namespace UncertaintyValue

theorem validated_eq_ok {α : Type} {fault : TreeFault} {e : Element} {file : String}
    {r : Except Failure α} {a : α} : validated fault e file r = .ok a ↔ r = .ok a := mapError_eq_ok

/-- A value takes a geometry as the part that it is without a default spacing. -/
theorem surfacePart_eq_ok {file : String} (e : Element) (part : SingleSurface) :
    surfacePart file e = .ok part ↔ Geometry.singleSurface? e none = .ok (some part) := by
  rw [surfacePart, Geometry.singleSurface?]
  split
  · simp [map_eq_ok, simpleFaultOf, validated_eq_ok]
  · split
    · simp [map_eq_ok, complexFaultOf, validated_eq_ok]
    · split
      · simp [map_eq_ok, validated_eq_ok]
      · simp

theorem readSurface_eq_ok {e : Element} {file : String} {value : UncertaintyValue} :
    readSurface e file = .ok value ↔
      ∃ surface, value = .surface surface ∧ Surface.Of none e surface := by
  simp only [Surface.of_iff_mapM (@surfacePart_eq_ok file)]
  rw [readSurface]
  cases hc : e.child? "surface" with
  | none => simp
  | some c =>
    cases hes : c.elements with
    | nil =>
      constructor
      · intro h
        simp [hes] at h
      · rintro ⟨surface, rfl, c', first, more, hc', hread, _⟩
        cases hc'
        rw [hes] at hread
        cases hread
    | cons g gs =>
      simp only [Option.map_some, Option.getD_some, hes, bind_eq_ok]
      constructor
      · rintro ⟨first, hfirst, more, hmore, h⟩
        cases h
        refine ⟨_, rfl, c, first, more, rfl, ?_, rfl⟩
        rw [hes]
        exact mapM_cons_eq_ok.mpr ⟨first, more, hfirst, hmore, rfl⟩
      · rintro ⟨surface, rfl, c', first, more, hc', hread, rfl⟩
        cases hc'
        rw [hes] at hread
        obtain ⟨first', more', hfirst, hmore, hcons⟩ := mapM_cons_eq_ok.mp hread
        cases hcons
        exact ⟨first, hfirst, more, hmore, rfl⟩

end UncertaintyValue

/-- An element is read as one surface at most. -/
theorem Surface.Of.unique {e : Element} {surface surface' : Surface} (h : Surface.Of none e surface)
    (h' : Surface.Of none e surface') : surface = surface' := by
  have hread : UncertaintyValue.readSurface e "" = .ok (.surface surface) :=
    UncertaintyValue.readSurface_eq_ok.mpr ⟨surface, rfl, h⟩
  have hread' : UncertaintyValue.readSurface e "" = .ok (.surface surface') :=
    UncertaintyValue.readSurface_eq_ok.mpr ⟨surface', rfl, h'⟩
  rw [hread] at hread'
  cases hread'
  rfl

namespace SourceModel

/-- A source takes a geometry as the part that it is with the default spacing. -/
theorem surfacePart_eq_ok (e : Element) (part : SingleSurface) :
    surfacePart e = .ok part ↔
      Geometry.singleSurface? e (some defaultSpacing) = .ok (some part) := by
  rw [surfacePart, bind_eq_ok]
  constructor
  · rintro ⟨found, hfound, h⟩
    cases found with
    | none => cases h
    | some surface =>
      cases h
      exact hfound
  · intro h
    exact ⟨some part, h, rfl⟩

theorem characteristicFaultBody_eq_ok {e : Element} {body : SourceBody} :
    characteristicFaultBody e = .ok body ↔
      ∃ surface, body = .characteristicFault surface ∧
        Surface.Of (some defaultSpacing) e surface := by
  simp only [Surface.of_iff_mapM surfacePart_eq_ok]
  rw [characteristicFaultBody, Element.requireChild]
  cases hc : e.child? "surface" with
  | none =>
    constructor
    · intro h
      cases h
    · rintro ⟨_, _, _, _, _, hc', _⟩
      cases hc'
  | some c =>
    rw [ok_bind, bind_eq_ok]
    constructor
    · rintro ⟨parts, hparts, h⟩
      cases parts with
      | nil => cases h
      | cons first more =>
        cases h
        exact ⟨_, rfl, c, first, more, rfl, hparts, rfl⟩
    · rintro ⟨surface, rfl, c', first, more, hc', hparts, rfl⟩
      cases hc'
      exact ⟨_, hparts, rfl⟩

def asFault (e : Element) (attributes : List (String × String)) : Element :=
  { e with name := "characteristicFaultSource", attributes }

section Faults
variable {e : Element} {attributes : List (String × String)} {region : String}

/-- What a source of a characteristic fault is described by. -/
theorem Describes.surface {s : Source} (h : Describes region (asFault e attributes) s) :
    ∃ surface, s.body = .characteristicFault surface ∧
      Surface.Of (some defaultSpacing) e surface := by
  obtain ⟨reader, hreader, hbody⟩ := h.body
  cases hreader
  exact characteristicFaultBody_eq_ok.mp hbody

/-- The only thing that can be wrong with an element that has an id and no faulty distribution is
its surface. -/
theorem exists_describes {surface : Surface} {mfd : Option Mfd}
    (hsurface : Surface.Of (some defaultSpacing) e surface)
    (named : (asFault e attributes).attributeText "id" ≠ "") (hmfd : mfd? e = .ok mfd) :
    ∃ s, Describes region (asFault e attributes) s ∧
      s.id = (asFault e attributes).attributeText "id" := by
  let s : Source := {
    id := (asFault e attributes).attributeText "id"
    name := (asFault e attributes).attributeText "name"
    region := regionOf (asFault e attributes) region
    mfd, scalingRate := 1, body := .characteristicFault surface }
  have hbody : characteristicFaultBody (asFault e attributes) = .ok s.body :=
    characteristicFaultBody_eq_ok.mpr ⟨surface, rfl, hsurface⟩
  exact ⟨s, ⟨rfl, rfl, rfl, ⟨characteristicFaultBody, rfl, hbody⟩, hmfd, rfl, named, rfl⟩, rfl⟩

end Faults

/-- An element whose geometries say their spacings is a value for the surface of a characteristic
fault exactly if it is a source of that kind, provided that nothing else is wrong with the source:
and then value and source have the same surface, made of all geometries in order. -/
theorem read_surface_iff_readSource {e : Element} (spaced : Surface.Spaced e)
    {attributes : List (String × String)} {used : List String} {mfd : Option Mfd}
    (named : (asFault e attributes).attributeText "id" ≠ "")
    (fresh : (asFault e attributes).attributeText "id" ∉ used) (hmfd : mfd? e = .ok mfd)
    (file modelFile region : String) :
    ((∃ value, UncertaintyValue.read .characteristicFaultGeometryAbsolute e file = .ok value) ↔
      ∃ s, (readSource modelFile region used (asFault e attributes)).result = .ok (some s)) ∧
    ∀ value s, UncertaintyValue.read .characteristicFaultGeometryAbsolute e file = .ok value →
      (readSource modelFile region used (asFault e attributes)).result = .ok (some s) →
      ∃ surface, value = .surface surface ∧ s.body = .characteristicFault surface ∧
        Surface.Of none e surface := by
  have hread : ∀ value,
      UncertaintyValue.read .characteristicFaultGeometryAbsolute e file = .ok value ↔
        ∃ surface, value = .surface surface ∧ Surface.Of none e surface :=
    fun value => UncertaintyValue.readSurface_eq_ok
  simp only [hread, readSource_eq_ok_some]
  refine ⟨⟨?_, ?_⟩, ?_⟩
  · rintro ⟨_, surface, rfl, hsurface⟩
    obtain ⟨s, hs, hid⟩ :=
      exists_describes ((Surface.of_iff_of_spaced spaced).mpr hsurface) named hmfd
    exact ⟨s, hs, hid ▸ fresh⟩
  · rintro ⟨s, hs, _⟩
    obtain ⟨surface, _, hsurface⟩ := hs.surface
    exact ⟨_, surface, rfl, (Surface.of_iff_of_spaced spaced).mp hsurface⟩
  · rintro _ s ⟨surface, rfl, hsurface⟩ ⟨hs, _⟩
    obtain ⟨surface', hbody, hsurface'⟩ := hs.surface
    cases hsurface.unique ((Surface.of_iff_of_spaced spaced).mp hsurface')
    exact ⟨surface, rfl, hbody, hsurface⟩

def cornerNode (name longitude depth : String) : Node :=
  .element name 6 [("lon", longitude), ("lat", "45"), ("depth", depth)] []

def twoParts : Element where
  file := "model.xml"
  name := "uncertaintyModel"
  line := 1
  attributes := []
  children := [.element "surface" 2 []
    [.element "planarSurface" 3 [("spacing", "2")]
        [cornerNode "topLeft" "10" "0", cornerNode "topRight" "11" "0",
          cornerNode "bottomRight" "11" "8", cornerNode "bottomLeft" "10" "8"],
      .element "simpleFaultGeometry" 8 [("spacing", " 1.5 ")]
        [.element "LineString" 9 []
            [.element "posList" 10 [] [.text "10 45 11 45.5"]],
          .element "upperSeismoDepth" 11 [] [.text "0"],
          .element "lowerSeismoDepth" 12 [] [.text "12"],
          .element "dip" 13 [] [.text "60"]]]]

/-- A value and a source with the same two parts. -/
theorem read_surface_iff_readSource_twoParts :
    ∃ value s, UncertaintyValue.read .characteristicFaultGeometryAbsolute twoParts "tree.xml" =
        .ok value ∧
      (readSource "model.xml" "shield" ["s1"] (asFault twoParts [("id", "s2")])).result =
        .ok (some s) ∧
      ∃ surface, value = .surface surface ∧ s.body = .characteristicFault surface ∧
        Surface.Of none twoParts surface := by
  have hspaced : Surface.Spaced twoParts := by
    intro c hc
    cases hc
    decide +kernel
  have hsome : (UncertaintyValue.read .characteristicFaultGeometryAbsolute twoParts
      "tree.xml").toOption.isSome = true := by decide +kernel
  obtain ⟨value, hvalue⟩ := Option.isSome_iff_exists.mp hsome
  have hread := toOption_eq_some.mp hvalue
  have hnamed : (asFault twoParts [("id", "s2")]).attributeText "id" ≠ "" := by decide
  have hfresh : (asFault twoParts [("id", "s2")]).attributeText "id" ∉ ["s1"] := by decide
  have hmfd : mfd? twoParts = .ok none := rfl
  obtain ⟨hiff, hsame⟩ :=
    read_surface_iff_readSource hspaced hnamed hfresh hmfd "tree.xml" "model.xml" "shield"
  obtain ⟨s, hs⟩ := hiff.mp ⟨value, hread⟩
  exact ⟨value, s, hread, hs, hsame value s hread hs⟩

end SourceModel

end SeismicTree

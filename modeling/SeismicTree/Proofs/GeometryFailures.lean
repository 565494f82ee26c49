import SeismicTree.Geometry.Reading
import SeismicTree.Proofs.CheckFailures

/-!
# How the reading of geometry can fail

A geometry is missing a part, a part of it cannot be read as a number, or a number is outside of its
domain. There is no other way in which reading one fails, so whoever reads a geometry can turn all
of its failures into one of their own. Where a failure shows a line, it is the line of an element at
or inside the one that is read.
-/

namespace SeismicTree

/-- The elements of a document, at all depths. -/
inductive Element.Contains (root : Element) : Element → Prop where
  | root : Contains root root
  | child {e c : Element} (within : Contains root e) (mem : c ∈ e.elements) : Contains root c

namespace Element.Contains
variable {root e c : Element} {name : String}

theorem child? (h : root.Contains e) (hc : e.child? name = some c) : root.Contains c :=
  h.child (List.mem_of_find?_eq_some hc)

theorem elementsNamed (h : root.Contains e) (hc : c ∈ e.elementsNamed name) : root.Contains c :=
  h.child (List.mem_filter.mp hc).1

theorem requireChild (h : root.Contains e) (hc : e.requireChild name = .ok c) :
    root.Contains c := by
  rw [Element.requireChild] at hc
  split at hc
  · cases hc
    exact h.child? ‹_›
  · cases hc

end Element.Contains

def geometryKinds : List FailureKind := [.domain, .markupValidity]

/-- A failure of something inside of an element that is to be read as numbers or geometry. -/
structure Element.Spoils (root : Element) (f : Failure) : Prop where
  kind : f.kind ∈ geometryKinds
  line : ∀ n, f.context.line = some n → ∃ e, root.Contains e ∧ e.line = n

section Readers
variable {root e : Element}

theorem Failure.OutsideDomain.spoils {f : Failure} (h : f.OutsideDomain) : root.Spoils f where
  kind := by rw [h.kind]; decide
  line _ hn := by rw [h.line] at hn; cases hn

/-- A failure of the markup that names no line. -/
theorem spoils_markup {fault : MarkupFault} {c : Context} (h : c.line = none) :
    root.Spoils { cause := .markup fault, context := c } where
  kind := by simp [Failure.kind, Cause.kind, geometryKinds]
  line _ hn := by rw [h] at hn; cases hn

/-- A failure that is given the line of an element inside. -/
theorem Element.Spoils.within {f : Failure} (h : root.Spoils f) {change : Context → Context}
    (inside : root.Contains e) (line : ∀ c, (change c).line = some e.line) :
    root.Spoils (f.within change) where
  kind := h.kind
  line _ hn := ⟨e, inside, Option.some.inj ((line f.context).symm.trans hn)⟩

theorem Readable.read_spoils (α : Type) [Readable α] (text : String) :
    FailsWith root.Spoils (Readable.read α text) := by
  intro f h
  obtain ⟨_, rfl⟩ := Readable.read_eq_error.mp h
  exact spoils_markup rfl

namespace Element

theorem attributeAs_spoils (inside : root.Contains e) (α : Type) [Readable α] (name : String) :
    FailsWith root.Spoils (e.attributeAs α name) := by
  unfold attributeAs
  split
  · exact failsWith_ok none
  · refine failsWith_mapError fun f hf => ?_
    have hread : FailsWith root.Spoils _ := Readable.read_spoils α (e.attributeText name)
    exact (hread f (map_eq_error.mp hf)).within inside fun _ => rfl

theorem textAs_spoils (inside : root.Contains e) (α : Type) [Readable α] :
    FailsWith root.Spoils (e.textAs α) := by
  refine failsWith_mapError fun f hf => ?_
  have hread : FailsWith root.Spoils _ := Readable.read_spoils α e.text
  exact (hread f hf).within inside fun _ => rfl

/-- What is done with a child element, which has to be there. -/
theorem bind_child_spoils {α : Type} {name : String} {g : Element → Except Failure α}
    (inside : root.Contains e) (hg : ∀ c, root.Contains c → FailsWith root.Spoils (g c)) :
    FailsWith root.Spoils (e.requireChild name >>= g) := by
  refine failsWith_bind ?_ fun c hc => hg c (inside.requireChild hc)
  unfold requireChild
  split
  · exact failsWith_ok _
  · exact failsWith_error (spoils_markup rfl)

theorem requireNumber_spoils (inside : root.Contains e) (name : String) :
    FailsWith root.Spoils (e.requireNumber name) := by
  unfold requireNumber
  refine failsWith_bind (attributeAs_spoils inside Binary64 name) fun x _ => ?_
  split
  · exact failsWith_ok _
  · exact failsWith_error (spoils_markup rfl)

end Element

open Element

namespace Geometry

theorem numbers_spoils (text : String) : FailsWith root.Spoils (numbers text) :=
  failsWith_mapM fun _ _ => Readable.read_spoils Binary64 _

theorem checkedPoint_outside (p : Point) : FailsWith Failure.OutsideDomain (checkedPoint p) := by
  unfold checkedPoint
  exact failsWith_check (fun _ => ⟨rfl, rfl⟩) fun _ => Point.make_outside _ _ _

theorem points_spoils (list : Element) (dimension : Dimension) :
    FailsWith root.Spoils (points list dimension) := by
  unfold points
  refine failsWith_bind (numbers_spoils _) fun numbers _ => ?_
  have hcoordinates : root.Spoils (Failure.domain .coordinates list.text) :=
    Failure.OutsideDomain.spoils ⟨rfl, rfl⟩
  split
  · exact failsWith_error hcoordinates
  · exact failsWith_error hcoordinates
  · exact failsWith_mapM fun p _ => (checkedPoint_outside p).mono fun _ h => h.spoils

theorem point_spoils (inside : root.Contains e) : FailsWith root.Spoils (point e) := by
  unfold point
  refine bind_child_spoils inside fun c hc => bind_child_spoils hc fun list _ => ?_
  refine failsWith_bind (points_spoils list _) fun ps _ => ?_
  split
  · exact failsWith_ok _
  · exact failsWith_error (Failure.OutsideDomain.spoils ⟨rfl, rfl⟩)

theorem line_spoils (inside : root.Contains e) (dimension : Dimension) :
    FailsWith root.Spoils (line e dimension) := by
  unfold line
  refine bind_child_spoils inside fun c hc => bind_child_spoils hc fun list _ => ?_
  refine failsWith_bind (points_spoils list dimension) fun ps _ => ?_
  exact (Line.make_outside ps).mono fun _ h => h.spoils

theorem polygon_spoils (inside : root.Contains e) : FailsWith root.Spoils (polygon e) := by
  unfold polygon
  refine bind_child_spoils inside fun p hp => bind_child_spoils hp fun exterior hexterior => ?_
  refine bind_child_spoils hexterior fun ring hring => bind_child_spoils hring fun list _ => ?_
  refine failsWith_bind (points_spoils list _) fun ps _ => ?_
  refine failsWith_check (fun _ => ?_) fun _ => failsWith_ok ps
  exact Failure.OutsideDomain.spoils ⟨rfl, rfl⟩

theorem spacing_spoils (inside : root.Contains e) (fallback : Option Binary64) :
    FailsWith root.Spoils (spacing e fallback) := by
  unfold spacing
  refine failsWith_bind (attributeAs_spoils inside Binary64 _) fun x _ => ?_
  split
  · exact requireNumber_spoils inside _
  · refine failsWith_check (fun _ => ?_) fun _ => failsWith_ok _
    exact Failure.OutsideDomain.spoils ⟨rfl, rfl⟩

theorem simpleFault_spoils (inside : root.Contains e) (fallback : Option Binary64) :
    FailsWith root.Spoils (simpleFault e fallback) := by
  unfold simpleFault
  refine failsWith_bind (line_spoils inside .plane) fun trace _ => ?_
  refine bind_child_spoils inside fun c hc => failsWith_bind (textAs_spoils hc _) fun upper _ => ?_
  refine bind_child_spoils inside fun c hc => failsWith_bind (textAs_spoils hc _) fun lower _ => ?_
  refine bind_child_spoils inside fun c hc => failsWith_bind (textAs_spoils hc _) fun dip _ => ?_
  exact failsWith_bind (spacing_spoils inside fallback) fun spacing _ => failsWith_ok _

theorem complexFault_spoils (inside : root.Contains e) (fallback : Option Binary64) :
    FailsWith root.Spoils (complexFault e fallback) := by
  unfold complexFault
  have hedges : FailsWith root.Spoils (e.elements.mapM (line · .space)) :=
    failsWith_mapM fun edge hedge => line_spoils (inside.child hedge) .space
  refine failsWith_bind hedges fun edges _ => ?_
  refine failsWith_check (fun _ => Failure.OutsideDomain.spoils ⟨rfl, rfl⟩) fun _ => ?_
  exact failsWith_bind (spacing_spoils inside fallback) fun spacing _ => failsWith_ok _

theorem corner_spoils (inside : root.Contains e) (name : String) :
    FailsWith root.Spoils (corner e name) := by
  unfold corner
  refine bind_child_spoils inside fun c hc => ?_
  refine failsWith_bind (requireNumber_spoils hc _) fun depth _ => ?_
  refine failsWith_check (fun _ => Failure.OutsideDomain.spoils ⟨rfl, rfl⟩) fun _ => ?_
  refine failsWith_bind (requireNumber_spoils hc _) fun latitude _ => ?_
  refine failsWith_bind (requireNumber_spoils hc _) fun longitude _ => ?_
  exact (Point.make_outside longitude latitude depth).mono fun _ h => h.spoils

theorem planarSurface_spoils (inside : root.Contains e) (fallback : Option Binary64) :
    FailsWith root.Spoils (planarSurface e fallback) := by
  unfold planarSurface
  refine failsWith_bind (corner_spoils inside _) fun topLeft _ => ?_
  refine failsWith_bind (corner_spoils inside _) fun topRight _ => ?_
  refine failsWith_bind (corner_spoils inside _) fun bottomRight _ => ?_
  refine failsWith_bind (corner_spoils inside _) fun bottomLeft _ => ?_
  exact failsWith_bind (spacing_spoils inside fallback) fun spacing _ => failsWith_ok _

theorem singleSurface?_spoils (inside : root.Contains e) (fallback : Option Binary64) :
    FailsWith root.Spoils (singleSurface? e fallback) := by
  unfold singleSurface?
  split
  · exact failsWith_map (simpleFault_spoils inside fallback)
  split
  · exact failsWith_map (complexFault_spoils inside fallback)
  split
  · exact failsWith_map (planarSurface_spoils inside fallback)
  · exact failsWith_ok none

end Geometry

end Readers

end SeismicTree

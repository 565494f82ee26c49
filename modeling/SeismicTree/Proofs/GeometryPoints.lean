import SeismicTree.Proofs.Results
import SeismicTree.Source.Model
import SeismicTree.Uncertainty.Reading

/-!
# Points that were read

Whatever a geometry is read from, a point of it was made with its coordinates checked. This holds of
the sources of a model and of the values of branches, and of every surface that either can hold. It
says nothing about the other numbers of a geometry, some of which are not looked at when it is read.
-/

namespace SeismicTree

def Point.Checked (p : Point) : Prop := Point.make p.longitude p.latitude p.depth = .ok p

theorem Point.make_eq_ok {longitude latitude depth : Binary64} {p : Point} :
    Point.make longitude latitude depth = .ok p ↔
      ¬ (longitude < -180 ∨ 180 < longitude) ∧ ¬ (latitude < -90 ∨ 90 < latitude) ∧
        ¬ earthRadius ≤ depth ∧ ⟨longitude, latitude, depth⟩ = p := by
  simp only [make, check_eq_ok, pure, Except.pure, Except.ok.injEq]

theorem Point.make_checked (longitude latitude depth : Binary64) :
    Yields Point.Checked (Point.make longitude latitude depth) := by
  intro p h
  obtain ⟨_, _, _, rfl⟩ := make_eq_ok.mp h
  exact h

namespace SingleSurface

def points : SingleSurface → List Point
  | simple g => g.trace.points
  | complex g => g.edges.flatMap Line.points
  | planar g => [g.topLeft, g.topRight, g.bottomRight, g.bottomLeft]

end SingleSurface

namespace Surface

def points : Surface → List Point
  | single s => s.points
  | multi m => m.surfaces.flatMap SingleSurface.points

theorem points_assemble (first : SingleSurface) (more : List SingleSurface) :
    (assemble first more).points = (first :: more).flatMap SingleSurface.points := by
  cases more with
  | nil => exact (List.append_nil _).symm
  | cons second more => rfl

end Surface

def SourceBody.points : SourceBody → List Point
  | .point location _ _ => [location]
  | .area polygon _ _ _ => polygon
  | .simpleFault g => (SingleSurface.simple g).points
  | .complexFault g => (SingleSurface.complex g).points
  | .characteristicFault s => s.points

def UncertaintyValue.points : UncertaintyValue → List Point
  | .simpleFault g => (SingleSurface.simple g).points
  | .complexFault g => (SingleSurface.complex g).points
  | .surface s => s.points
  | _ => []

namespace Geometry

theorem checkedPoint_checked (p : Point) : Yields Point.Checked (checkedPoint p) := by
  unfold checkedPoint
  exact yields_check fun _ => Point.make_checked _ _ _

theorem points_checked (list : Element) (dimension : Dimension) :
    Yields (fun ps => ∀ p ∈ ps, p.Checked) (points list dimension) := by
  unfold points
  refine yields_after fun numbers => ?_
  split
  · exact yields_error _
  · exact yields_error _
  · exact yields_mapM fun p _ => checkedPoint_checked p

theorem point_checked (e : Element) : Yields Point.Checked (point e) := by
  unfold point
  refine yields_after fun c => yields_after fun list => ?_
  refine yields_bind (points_checked list .plane) fun ps hps => ?_
  split
  · exact yields_ok (hps _ List.mem_cons_self)
  · exact yields_error _

theorem line_checked (e : Element) (dimension : Dimension) :
    Yields (fun l : Line => ∀ p ∈ l.points, p.Checked) (line e dimension) := by
  unfold line
  refine yields_after fun c => yields_after fun list => ?_
  refine yields_bind (points_checked list dimension) fun ps hps => ?_
  unfold Line.make
  split
  · exact yields_error _
  · exact yields_ok hps

theorem polygon_checked (e : Element) :
    Yields (fun ps => ∀ p ∈ ps, p.Checked) (polygon e) := by
  unfold polygon
  refine yields_after fun c => yields_after fun exterior => yields_after fun ring => ?_
  refine yields_after fun list => yields_bind (points_checked list .plane) fun ps hps => ?_
  exact yields_check fun _ => yields_ok hps

theorem simpleFault_checked (e : Element) (fallback : Option Binary64) :
    Yields (fun g => ∀ p ∈ (SingleSurface.simple g).points, p.Checked)
      (simpleFault e fallback) := by
  unfold simpleFault
  refine yields_bind (line_checked e .plane) fun trace htrace => ?_
  refine yields_after fun upper => yields_after fun upperDepth => ?_
  refine yields_after fun lower => yields_after fun lowerDepth => ?_
  refine yields_after fun dip => yields_after fun dip => yields_after fun spacing => ?_
  exact yields_ok htrace

theorem complexFault_checked (e : Element) (fallback : Option Binary64) :
    Yields (fun g => ∀ p ∈ (SingleSurface.complex g).points, p.Checked)
      (complexFault e fallback) := by
  unfold complexFault
  refine yields_bind (yields_mapM fun edge _ => line_checked edge .space) fun edges hedges => ?_
  refine yields_check fun _ => yields_after fun spacing => yields_ok fun p hp => ?_
  obtain ⟨edge, hedge, hp⟩ := List.mem_flatMap.mp hp
  exact hedges edge hedge p hp

theorem corner_checked (e : Element) (name : String) : Yields Point.Checked (corner e name) := by
  unfold corner
  refine yields_after fun c => yields_after fun depth => yields_check fun _ => ?_
  refine yields_after fun latitude => yields_after fun longitude => ?_
  exact Point.make_checked longitude latitude depth

theorem planarSurface_checked (e : Element) (fallback : Option Binary64) :
    Yields (fun g => ∀ p ∈ (SingleSurface.planar g).points, p.Checked)
      (planarSurface e fallback) := by
  unfold planarSurface
  refine yields_bind (corner_checked e _) fun topLeft h1 => ?_
  refine yields_bind (corner_checked e _) fun topRight h2 => ?_
  refine yields_bind (corner_checked e _) fun bottomRight h3 => ?_
  refine yields_bind (corner_checked e _) fun bottomLeft h4 => ?_
  refine yields_after fun spacing => yields_ok fun p hp => ?_
  simp only [SingleSurface.points, List.mem_cons, List.not_mem_nil, or_false] at hp
  rcases hp with rfl | rfl | rfl | rfl
  · exact h1
  · exact h2
  · exact h3
  · exact h4

end Geometry

/-- Surfaces whose points are checked make up one whose points are. -/
theorem Surface.checked_assemble {first : SingleSurface} {more : List SingleSurface}
    (h : ∀ s ∈ first :: more, ∀ p ∈ s.points, p.Checked) :
    ∀ p ∈ (Surface.assemble first more).points, p.Checked := by
  intro p hp
  rw [points_assemble] at hp
  obtain ⟨s, hs, hp⟩ := List.mem_flatMap.mp hp
  exact h s hs p hp

namespace SourceModel

theorem surfacePart_checked (e : Element) :
    Yields (fun s : SingleSurface => ∀ p ∈ s.points, p.Checked) (surfacePart e) := by
  intro s h
  rw [surfacePart] at h
  obtain ⟨found, hfound, h⟩ := bind_eq_ok.mp h
  cases found with
  | none => cases h
  | some s' =>
    cases h
    rw [Geometry.singleSurface?] at hfound
    split at hfound
    · obtain ⟨g, hg, heq⟩ := map_eq_ok.mp hfound
      cases heq
      exact Geometry.simpleFault_checked e _ g hg
    · split at hfound
      · obtain ⟨g, hg, heq⟩ := map_eq_ok.mp hfound
        cases heq
        exact Geometry.complexFault_checked e _ g hg
      · split at hfound
        · obtain ⟨g, hg, heq⟩ := map_eq_ok.mp hfound
          cases heq
          exact Geometry.planarSurface_checked e _ g hg
        · cases hfound

theorem characteristicFaultBody_checked (e : Element) :
    Yields (fun b : SourceBody => ∀ p ∈ b.points, p.Checked) (characteristicFaultBody e) := by
  unfold characteristicFaultBody
  refine yields_after fun surface => ?_
  refine yields_bind (yields_mapM fun part _ => surfacePart_checked part) fun parts hparts => ?_
  split
  · exact yields_error _
  · exact yields_ok (Surface.checked_assemble hparts)

/-- The points of a source element are checked, whatever kind of source it is. -/
theorem body_checked {name : String} {body : Element → Except Failure SourceBody}
    (h : bodyReader? name = some body) (e : Element) :
    Yields (fun b : SourceBody => ∀ p ∈ b.points, p.Checked) (body e) := by
  rw [bodyReader?] at h
  split at h
  · cases h
    unfold pointBody
    refine yields_after fun geometry => yields_after fun _ => ?_
    refine yields_bind (Geometry.point_checked geometry) fun location hlocation => ?_
    exact yields_ok fun p hp => List.mem_singleton.mp hp ▸ hlocation
  · split at h
    · cases h
      unfold areaBody
      refine yields_after fun geometry => yields_after fun _ => yields_after fun _ => ?_
      exact yields_bind (Geometry.polygon_checked geometry) fun ps hps => yields_ok hps
    · split at h
      · cases h
        unfold simpleFaultBody
        refine yields_after fun geometry => ?_
        exact yields_map (Geometry.simpleFault_checked geometry _) fun g hg => hg
      · split at h
        · cases h
          unfold complexFaultBody
          refine yields_after fun geometry => ?_
          exact yields_map (Geometry.complexFault_checked geometry _) fun g hg => hg
        · split at h
          · cases h
            exact characteristicFaultBody_checked e
          · cases h

end SourceModel

namespace UncertaintyValue

theorem surfacePart_checked (file : String) (e : Element) :
    Yields (fun s : SingleSurface => ∀ p ∈ s.points, p.Checked) (surfacePart file e) := by
  unfold surfacePart
  split
  · exact yields_map (yields_mapError (Geometry.simpleFault_checked e none)) fun g hg => hg
  · split
    · exact yields_map (yields_mapError (Geometry.complexFault_checked e none)) fun g hg => hg
    · split
      · exact yields_map (yields_mapError (Geometry.planarSurface_checked e none)) fun g hg => hg
      · exact yields_error _

/-- The points that a value brings with it are checked, whatever its type is. -/
theorem read_checked (u : Uncertainty) (e : Element) (file : String) :
    Yields (fun v : UncertaintyValue => ∀ p ∈ v.points, p.Checked) (read u e file) := by
  have hnone : ∀ p ∈ ([] : List Point), p.Checked := fun p hp => absurd hp List.not_mem_nil
  unfold read
  split
  · unfold readNumber
    split
    · exact yields_ok hnone
    · exact yields_error _
  · exact yields_ok hnone
  · unfold readPair
    split
    · exact yields_ok hnone
    · exact yields_error _
  · exact yields_map (P := fun _ => True) (fun _ _ => trivial) fun _ _ => hnone
  · exact yields_map (yields_mapError (Geometry.simpleFault_checked _ none)) fun g hg => hg
  · exact yields_map (yields_mapError (Geometry.complexFault_checked _ none)) fun g hg => hg
  · unfold readSurface
    split
    · exact yields_error _
    · refine yields_bind (surfacePart_checked file _) fun first hfirst => ?_
      refine yields_bind (yields_mapM fun part _ => surfacePart_checked file part)
        fun more hmore => ?_
      exact yields_ok (Surface.checked_assemble (List.forall_mem_cons.mpr ⟨hfirst, hmore⟩))

end UncertaintyValue

end SeismicTree

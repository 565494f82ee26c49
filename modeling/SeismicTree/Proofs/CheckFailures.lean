import SeismicTree.Proofs.Results
import SeismicTree.Source.Basic

/-!
# What the checks of values refuse

A value is checked where it is built into something, far from the text it was read from. So a check
can only say that a value is outside of its domain. Which line it is from is left open, and so it is
the same check that refuses a value that was read and one that a modification leads to.
-/

namespace SeismicTree

/-- A value is outside of its domain, and no line is named. -/
structure Failure.OutsideDomain (f : Failure) : Prop where
  kind : f.kind = .domain
  line : f.context.line = none

open Failure (OutsideDomain)

theorem Point.make_outside (longitude latitude depth : Binary64) :
    FailsWith OutsideDomain (Point.make longitude latitude depth) := by
  unfold make
  refine failsWith_check (fun _ => ⟨rfl, rfl⟩) fun _ => ?_
  refine failsWith_check (fun _ => ⟨rfl, rfl⟩) fun _ => ?_
  refine failsWith_check (fun _ => ⟨rfl, rfl⟩) fun _ => ?_
  exact failsWith_ok _

theorem Line.make_outside (points : List Point) : FailsWith OutsideDomain (Line.make points) := by
  unfold make
  split
  · exact failsWith_error ⟨rfl, rfl⟩
  · exact failsWith_ok _

theorem GutenbergRichter.checked_outside (g : GutenbergRichter) :
    FailsWith OutsideDomain g.checked := by
  unfold checked
  refine failsWith_check (fun _ => ⟨rfl, rfl⟩) fun _ => ?_
  refine failsWith_check (fun _ => ⟨rfl, rfl⟩) fun _ => ?_
  refine failsWith_check (fun _ => ⟨rfl, rfl⟩) fun _ => ?_
  exact failsWith_ok g

theorem BinnedRates.checked_outside (r : BinnedRates) : FailsWith OutsideDomain r.checked := by
  unfold checked
  refine failsWith_check (fun _ => ⟨rfl, rfl⟩) fun _ => ?_
  refine failsWith_check (fun _ => ⟨rfl, rfl⟩) fun _ => ?_
  refine failsWith_check (fun _ => ⟨rfl, rfl⟩) fun _ => ?_
  exact failsWith_ok r

namespace Source

theorem checkDepths_outside (upper lower : Binary64) :
    FailsWith OutsideDomain (checkDepths upper lower) :=
  failsWith_guard fun _ => ⟨rfl, rfl⟩

theorem checkDip_outside (dip : Binary64) : FailsWith OutsideDomain (checkDip dip) :=
  failsWith_guard fun _ => ⟨rfl, rfl⟩

theorem checkSpacing_outside (spacing : Binary64) :
    FailsWith OutsideDomain (checkSpacing spacing) :=
  failsWith_guard fun _ => ⟨rfl, rfl⟩

theorem checkSimpleFault_outside (g : SimpleFault) :
    FailsWith OutsideDomain (checkSimpleFault g) := by
  unfold checkSimpleFault
  refine failsWith_check (fun _ => ⟨rfl, rfl⟩) fun _ => ?_
  refine failsWith_bind (checkDepths_outside _ _) fun _ _ => ?_
  refine failsWith_bind (checkDip_outside _) fun _ _ => ?_
  exact checkSpacing_outside _

theorem checkComplexFault_outside (g : ComplexFault) :
    FailsWith OutsideDomain (checkComplexFault g) := by
  unfold checkComplexFault
  refine failsWith_check (fun _ => ⟨rfl, rfl⟩) fun _ => ?_
  exact checkSpacing_outside _

theorem checkArea_outside (id : String) (polygon : List Point)
    (upper lower discretization : Binary64) :
    FailsWith OutsideDomain (checkArea id polygon upper lower discretization) := by
  unfold checkArea
  refine failsWith_check (fun _ => ⟨rfl, rfl⟩) fun _ => ?_
  refine failsWith_bind (checkDepths_outside _ _) fun _ _ => ?_
  refine failsWith_check (fun _ => ⟨rfl, rfl⟩) fun _ => ?_
  exact failsWith_guard fun _ => ⟨rfl, rfl⟩

theorem checkBody_outside (id : String) (b : SourceBody) :
    FailsWith OutsideDomain (checkBody id b) := by
  cases b with
  | point location upper lower => exact checkDepths_outside upper lower
  | area polygon upper lower discretization => exact checkArea_outside id polygon upper lower _
  | simpleFault g => exact checkSimpleFault_outside g
  | complexFault g => exact checkComplexFault_outside g
  | characteristicFault surface => exact failsWith_ok ()

end Source

end SeismicTree

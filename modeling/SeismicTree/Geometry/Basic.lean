import SeismicTree.Failure.Basic
import SeismicTree.Number.Decimal

/-!
# Geometry of sources

Points, lines and fault surfaces are values with checked construction; no distance or mesh is
computed. A check refuses a coordinate that lies outside of its range, so a coordinate that is not
a number, which lies nowhere, passes.
-/

namespace SeismicTree

/-- A position on or below the surface: degrees east and north, and kilometres down. -/
structure Point where
  longitude : Binary64
  latitude : Binary64
  depth : Binary64
  deriving DecidableEq

/-- The Earth radius in kilometres, which bounds depths. -/
def earthRadius : Binary64 := 6371

/-- A point with its coordinates checked in this order. -/
def Point.make (longitude latitude depth : Binary64) : Except Failure Point := do
  if longitude < -180 ∨ 180 < longitude then
    throw (Failure.domain .longitude longitude.sixDecimals)
  if latitude < -90 ∨ 90 < latitude then
    throw (Failure.domain .latitude latitude.sixDecimals)
  if earthRadius ≤ depth then
    throw (Failure.domain .pointDepth depth.sixDecimals)
  return { longitude, latitude, depth }

structure Line where
  points : List Point
  points_ne_nil : points ≠ []
  deriving DecidableEq

def Line.make (points : List Point) : Except Failure Line :=
  if h : points = [] then .error { cause := .domain .emptyLine } else .ok ⟨points, h⟩

def Line.size (l : Line) : Nat := l.points.length

structure SimpleFault where
  trace : Line
  upperDepth : Binary64
  lowerDepth : Binary64
  dip : Binary64
  spacing : Binary64
  deriving DecidableEq

/-- A fault surface from its edges, the top edge first. -/
structure ComplexFault where
  edges : List Line
  spacing : Binary64
  deriving DecidableEq

/-- A plane rectangle from its corners. -/
structure PlanarSurface where
  topLeft : Point
  topRight : Point
  bottomRight : Point
  bottomLeft : Point
  spacing : Binary64
  deriving DecidableEq

/-- A surface that may be a part of a composite one. -/
inductive SingleSurface where
  | simple (fault : SimpleFault)
  | complex (fault : ComplexFault)
  | planar (plane : PlanarSurface)
  deriving DecidableEq

/-- Two or more surfaces taken together. -/
structure MultiSurface where
  surfaces : List SingleSurface
  two_le : 2 ≤ surfaces.length
  deriving DecidableEq

def MultiSurface.make (surfaces : List SingleSurface) : Except Failure MultiSurface :=
  if h : 2 ≤ surfaces.length then .ok ⟨surfaces, h⟩
  else .error (Failure.domain .surfaceCount (toString surfaces.length))

inductive Surface where
  | single (surface : SingleSurface)
  | multi (surfaces : MultiSurface)
  deriving DecidableEq

namespace Surface

def isMulti : Surface → Bool
  | single _ => false
  | multi _ => true

/-- The surface made of one or more surfaces: the only one, or a composite. -/
def assemble (first : SingleSurface) : List SingleSurface → Surface
  | [] => single first
  | second :: more => multi ⟨first :: second :: more, by simp⟩

end Surface

end SeismicTree

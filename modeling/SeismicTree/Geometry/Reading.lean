import SeismicTree.Geometry.Basic
import SeismicTree.Markup.Element

/-!
# Reading geometry

Geometry is read from elements with lists of positions. A failure carries the text at fault; which
file and line it came from is added by the caller. Where two parts of an element are at fault, the
order of the reads below decides which of them is reported.
-/

namespace SeismicTree.Geometry

def numbers (text : String) : Except Failure (List Binary64) :=
  (Text.tokens text).mapM (Readable.read Binary64)

/-- How many numbers make a position: longitude and latitude, or these and a depth. -/
inductive Dimension where
  | plane | space
  deriving DecidableEq, Repr

/-- The positions that a list of numbers holds; nothing if the last one is incomplete. In the plane
the depth is zero. -/
def positions? : Dimension → List Binary64 → Option (List Point)
  | _, [] => some []
  | .plane, x :: y :: rest => (positions? .plane rest).map (⟨x, y, 0⟩ :: ·)
  | .space, x :: y :: z :: rest => (positions? .space rest).map (⟨x, y, z⟩ :: ·)
  | _, _ => none

/-- A position as a point: its depth is not negative, and its coordinates are in range. -/
def checkedPoint (p : Point) : Except Failure Point := do
  if p.depth < 0 then throw (Failure.domain .negativeDepth p.depth.sixDecimals)
  Point.make p.longitude p.latitude p.depth

def points (list : Element) (dimension : Dimension) : Except Failure (List Point) := do
  match positions? dimension (← numbers list.text) with
  | none | some [] => throw (Failure.domain .coordinates list.text)
  | some ps => ps.mapM checkedPoint

def point (e : Element) : Except Failure Point := do
  let list ← (← e.requireChild "Point").requireChild "pos"
  match ← points list .plane with
  | [p] => return p
  | _ => throw { cause := .domain .positionCount }

def line (e : Element) (dimension : Dimension) : Except Failure Line := do
  let list ← (← e.requireChild "LineString").requireChild "posList"
  Line.make (← points list dimension)

/-- The outline of an element, three points at least. -/
def polygon (e : Element) : Except Failure (List Point) := do
  let ring ← (← (← e.requireChild "Polygon").requireChild "exterior").requireChild "LinearRing"
  let ps ← points (← ring.requireChild "posList") .plane
  if ps.length < 3 then throw { cause := .domain .polygonSize }
  return ps

/-- The mesh spacing of an element, or else the default one. -/
def spacing (e : Element) (fallback : Option Binary64) : Except Failure Binary64 := do
  match (← e.attributeAs Binary64 "spacing").or fallback with
  | none => e.requireNumber "spacing"
  | some x =>
    if x ≤ 0 then throw (Failure.domain .meshSpacing x.sixDecimals)
    return x

def simpleFault (e : Element) (fallback : Option Binary64) : Except Failure SimpleFault := do
  let trace ← line e .plane
  let upperDepth ← (← e.requireChild "upperSeismoDepth").textAs Binary64
  let lowerDepth ← (← e.requireChild "lowerSeismoDepth").textAs Binary64
  let dip ← (← e.requireChild "dip").textAs Binary64
  return { trace, upperDepth, lowerDepth, dip, spacing := ← spacing e fallback }

/-- Every child element is an edge, whatever its name. -/
def complexFault (e : Element) (fallback : Option Binary64) : Except Failure ComplexFault := do
  let edges ← e.elements.mapM (line · .space)
  if edges.length < 2 then throw { cause := .domain .edgeElements }
  return { edges, spacing := ← spacing e fallback }

def corner (e : Element) (name : String) : Except Failure Point := do
  let c ← e.requireChild name
  let depth ← c.requireNumber "depth"
  if depth < 0 then throw (Failure.domain .cornerDepth depth.sixDecimals)
  let latitude ← c.requireNumber "lat"
  let longitude ← c.requireNumber "lon"
  Point.make longitude latitude depth

def planarSurface (e : Element) (fallback : Option Binary64) : Except Failure PlanarSurface := do
  let topLeft ← corner e "topLeft"
  let topRight ← corner e "topRight"
  let bottomRight ← corner e "bottomRight"
  let bottomLeft ← corner e "bottomLeft"
  return { topLeft, topRight, bottomRight, bottomLeft, spacing := ← spacing e fallback }

/-- The fault surface of an element, if its name is that of one. -/
def singleSurface? (e : Element) (fallback : Option Binary64) :
    Except Failure (Option SingleSurface) :=
  if e.name = "simpleFaultGeometry" then (some ∘ .simple) <$> simpleFault e fallback
  else if e.name = "complexFaultGeometry" then (some ∘ .complex) <$> complexFault e fallback
  else if e.name = "planarSurface" then (some ∘ .planar) <$> planarSurface e fallback
  else .ok none

end SeismicTree.Geometry

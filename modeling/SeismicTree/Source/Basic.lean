import SeismicTree.Geometry.Basic
import SeismicTree.Mfd

/-!
# Seismic sources

A source is one of five kinds, with a distribution or without one. Sources are values: a modified
source is a new one, and nothing is shared with the source it was made from. A source is made by
its constructor, which checks the parts of its kind; the reported fault is the first in the order of
the checks.
-/

namespace SeismicTree

inductive SourceBody where
  | point (location : Point) (upperDepth lowerDepth : Binary64)
  | area (polygon : List Point) (upperDepth lowerDepth discretization : Binary64)
  | simpleFault (geometry : SimpleFault)
  | complexFault (geometry : ComplexFault)
  | characteristicFault (surface : Surface)
  deriving DecidableEq

inductive SourceKind where
  | point | area | simpleFault | complexFault | characteristicFault
  deriving DecidableEq, Repr

namespace SourceKind

def all : List SourceKind := [point, area, simpleFault, complexFault, characteristicFault]

def name : SourceKind → String
  | point => "point"
  | area => "area"
  | simpleFault => "simpleFault"
  | complexFault => "complexFault"
  | characteristicFault => "characteristicFault"

def ofName? (name : String) : Option SourceKind := all.find? (·.name == name)

end SourceKind

structure Source where
  id : String
  name : String
  region : String
  mfd : Option Mfd
  scalingRate : Binary64
  body : SourceBody
  deriving DecidableEq

inductive SourceChange where
  | adjustDip (delta : Binary64)
  | setDip (dip : Binary64)
  | setSimpleFault (geometry : SimpleFault)
  | setComplexFault (geometry : ComplexFault)
  | setSurface (surface : Surface)

def SourceChange.name : SourceChange → String
  | .adjustDip _ => "adjust_dip"
  | .setDip _ => "set_dip"
  | .setSimpleFault _ | .setComplexFault _ | .setSurface _ => "set_geometry"

namespace Source

def checkDepths (upper lower : Binary64) : Except Failure Unit :=
  if upper < 0 ∨ lower ≤ upper then
    .error (Failure.domain .depthOrder (upper.sixDecimals ++ " " ++ lower.sixDecimals))
  else .ok ()

def checkDip (dip : Binary64) : Except Failure Unit :=
  if dip ≤ 0 ∨ 90 < dip then .error (Failure.domain .dip dip.sixDecimals) else .ok ()

def checkSpacing (spacing : Binary64) : Except Failure Unit :=
  if spacing ≤ 0 then .error (Failure.domain .meshSpacing spacing.sixDecimals) else .ok ()

def checkSimpleFault (g : SimpleFault) : Except Failure Unit := do
  if g.trace.size < 2 then throw { cause := .domain .traceSize }
  checkDepths g.upperDepth g.lowerDepth
  checkDip g.dip
  checkSpacing g.spacing

def checkComplexFault (g : ComplexFault) : Except Failure Unit := do
  if g.edges.length < 2 then throw { cause := .domain .edgeCount }
  checkSpacing g.spacing

/-- The check of an area; its outline is looked at both before and after its depths. -/
def checkArea (id : String) (polygon : List Point) (upper lower discretization : Binary64) :
    Except Failure Unit := do
  if polygon.isEmpty then
    throw { cause := .domain .noLocation, context := { source := some id } }
  checkDepths upper lower
  if polygon.length < 3 then
    throw { cause := .domain .areaPolygon, context := { source := some id } }
  if discretization ≤ 0 then
    throw { cause := .domain .discretization
            context := { value := some discretization.sixDecimals, source := some id } }

/-- The check of what is particular to a kind. A surface was checked when it was made. -/
def checkBody (id : String) : SourceBody → Except Failure Unit
  | .point _ upper lower => checkDepths upper lower
  | .area polygon upper lower discretization => checkArea id polygon upper lower discretization
  | .simpleFault g => checkSimpleFault g
  | .complexFault g => checkComplexFault g
  | .characteristicFault _ => .ok ()

/-- A new source, with a scaling rate of one. -/
def make (id name region : String) (mfd : Option Mfd) (body : SourceBody) :
    Except Failure Source := do
  if id = "" then throw { cause := .misuse .emptySourceId }
  checkBody id body
  return { id, name, region, mfd, scalingRate := 1, body }

def kind (s : Source) : SourceKind :=
  match s.body with
  | .point .. => .point
  | .area .. => .area
  | .simpleFault _ => .simpleFault
  | .complexFault _ => .complexFault
  | .characteristicFault _ => .characteristicFault

def isMultiSurface (s : Source) : Bool :=
  match s.body with
  | .characteristicFault surface => surface.isMulti
  | _ => false

/-- The body after a modification, if the kind supports it. -/
def changeBody? : SourceBody → SourceChange → Option (Except Failure SourceBody)
  | .simpleFault g, .adjustDip d =>
    some ((fun _ => .simpleFault { g with dip := g.dip + d }) <$> checkDip (g.dip + d))
  | .simpleFault g, .setDip dip => some ((fun _ => .simpleFault { g with dip }) <$> checkDip dip)
  | .simpleFault _, .setSimpleFault g => some ((fun _ => .simpleFault g) <$> checkSimpleFault g)
  | .complexFault _, .setComplexFault g => some ((fun _ => .complexFault g) <$> checkComplexFault g)
  | .characteristicFault _, .setSurface surface => some (.ok (.characteristicFault surface))
  | _, _ => none

/-- The source after a modification. A failure carries the id of the source. -/
def modify (s : Source) (change : SourceChange) : Except Failure Source :=
  withContext (fun c => { c with source := some s.id }) <|
    match changeBody? s.body change with
    | some body => (fun body => { s with body }) <$> body
    | none =>
      .error
        { cause := .unsupported change.name (s.kind.name ++ " sources")
          context := { operation := some change.name } }

end Source

/-- Sources of one tectonic region, with the number of modifications that led to them. -/
structure SourceGroup where
  region : String
  name : String
  sources : List Source
  changes : Nat
  deriving DecidableEq

end SeismicTree

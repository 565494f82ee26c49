import SeismicTree.Geometry.Reading
import SeismicTree.Markup.Files
import SeismicTree.Source.Basic

/-!
# Source models

A source model lists sources, some of them inside source groups. Every source group of the model is
a group of its own. A source outside of them joins the first group of its region that is already
there, and opens one otherwise. Elements that are not sources are passed over with a warning.
-/

namespace SeismicTree

namespace SourceModel

/-- The mesh spacing, the area discretization and the bin width where none is given. -/
def defaultSpacing : Binary64 := 5
def defaultDiscretization : Binary64 := 10
def defaultBinWidth : Binary64 := 0.1

def gutenbergRichter (e : Element) : Except Failure Mfd := do
  let bValue ← e.requireNumber "bValue"
  let aValue ← e.requireNumber "aValue"
  let binWidth := (← e.attributeAs Binary64 "binWidth").getD defaultBinWidth
  let maxMag ← e.requireNumber "maxMag"
  let minMag ← e.requireNumber "minMag"
  .gutenbergRichter <$> GutenbergRichter.checked { minMag, maxMag, binWidth, aValue, bValue }

def binned (e : Element) : Except Failure Mfd := do
  let rates ← Geometry.numbers (← e.requireChild "occurRates").text
  let binWidth ← e.requireNumber "binWidth"
  let minMag ← e.requireNumber "minMag"
  .binned <$> BinnedRates.checked { minMag, binWidth, rates }

def mfd? (e : Element) : Except Failure (Option Mfd) :=
  match e.child? "truncGutenbergRichterMFD", e.child? "incrementalMFD" with
  | some m, _ => some <$> gutenbergRichter m
  | none, some m => some <$> binned m
  | none, none => .ok none

def depths (geometry : Element) : Except Failure (Binary64 × Binary64) := do
  let upper ← (← geometry.requireChild "upperSeismoDepth").textAs Binary64
  let lower ← (← geometry.requireChild "lowerSeismoDepth").textAs Binary64
  return (upper, lower)

def pointBody (e : Element) : Except Failure SourceBody := do
  let geometry ← e.requireChild "pointGeometry"
  let (upper, lower) ← depths geometry
  return .point (← Geometry.point geometry) upper lower

def areaBody (e : Element) : Except Failure SourceBody := do
  let geometry ← e.requireChild "areaGeometry"
  let (upper, lower) ← depths geometry
  let discretization ← geometry.attributeAs Binary64 "discretization"
  return .area (← Geometry.polygon geometry) upper lower
    (discretization.getD defaultDiscretization)

def simpleFaultBody (e : Element) : Except Failure SourceBody := do
  let geometry ← e.requireChild "simpleFaultGeometry"
  .simpleFault <$> Geometry.simpleFault geometry (some defaultSpacing)

def complexFaultBody (e : Element) : Except Failure SourceBody := do
  let geometry ← e.requireChild "complexFaultGeometry"
  .complexFault <$> Geometry.complexFault geometry (some defaultSpacing)

def surfacePart (e : Element) : Except Failure SingleSurface := do
  match ← Geometry.singleSurface? e (some defaultSpacing) with
  | some surface => return surface
  | none =>
    throw { cause := .markup .surfaceKind
            context := { elementName := some e.name, line := some e.line } }

def characteristicFaultBody (e : Element) : Except Failure SourceBody := do
  match ← (← e.requireChild "surface").elements.mapM surfacePart with
  | [] => throw { cause := .markup .noSurface }
  | first :: more => return .characteristicFault (Surface.assemble first more)

/-- How the element of a kind of source is read; nothing if no kind has the name. -/
def bodyReader? (name : String) : Option (Element → Except Failure SourceBody) :=
  if name = "pointSource" then some pointBody
  else if name = "areaSource" then some areaBody
  else if name = "simpleFaultSource" then some simpleFaultBody
  else if name = "complexFaultSource" then some complexFaultBody
  else if name = "characteristicFaultSource" then some characteristicFaultBody
  else none

/-- The region of a source element: its own, or that of the group around it. -/
def regionOf (e : Element) (groupRegion : String) : String :=
  let own := e.attributeText "tectonicRegion"
  if own = "" then groupRegion else own

/-- The source of an element whose id is not among those already used. -/
def construct (e : Element) (groupRegion : String) (used : List String)
    (body : Element → Except Failure SourceBody) : Except Failure Source := do
  let id := e.attributeText "id"
  let b ← body e
  let mfd ← mfd? e
  let source ← Source.make id (e.attributeText "name") (regionOf e groupRegion) mfd b
  if used.contains id then throw { cause := .duplicate }
  return source

/-- What is added to a failure of a source element. A line that is already known stays. -/
def place (file : String) (e : Element) (c : Context) : Context :=
  { c with
    source := some (e.attributeText "id"), file := some file, line := c.line.or (some e.line) }

/-- Reads an element as a source; one that is not a source is passed over with a warning. -/
def readSource (file : String) (groupRegion : String) (used : List String) (e : Element) :
    Logged (Option Source) := do
  match bodyReader? e.name with
  | some body => some <$> withContext (place file e) (construct e groupRegion used body)
  | none =>
    Logged.note .warning ("Ignoring unknown element " ++ e.name ++ " on line " ++ toString e.line)
    return none

/-- Adds a source to the first group of its region, or to a new group behind the others. -/
def join (source : Source) : List SourceGroup → List SourceGroup
  | [] => [{ region := source.region, name := "", sources := [source], changes := 0 }]
  | g :: groups =>
    if g.region = source.region then { g with sources := g.sources ++ [source] } :: groups
    else g :: join source groups

/-- What has been read: the groups in order, and the ids of all sources in them. -/
structure Progress where
  groups : List SourceGroup
  used : List String

def readMembers (file region : String) (used : List String) :
    List Element → Logged (List Source × List String)
  | [] => return ([], used)
  | e :: rest => do
    match ← readSource file region used e with
    | some source =>
      let (sources, used') ← readMembers file region (used ++ [source.id]) rest
      return (source :: sources, used')
    | none => readMembers file region used rest

def readEntry (file : String) (p : Progress) (e : Element) : Logged Progress := do
  if e.name = "sourceGroup" then
    let region := e.attributeText "tectonicRegion"
    let (sources, used) ← readMembers file region p.used e.elements
    let group := { region, name := e.attributeText "name", sources, changes := 0 }
    return { groups := p.groups ++ [group], used }
  else
    match ← readSource file "" p.used e with
    | some source => return { groups := join source p.groups, used := p.used ++ [source.id] }
    | none => return p

/-- The model element of a document: its root, or a child of it. -/
def modelElement (file : String) (root : Element) : Except Failure Element :=
  if root.name = "sourceModel" then .ok root
  else withContext (fun c => { c with file := some file }) (root.requireChild "sourceModel")

def readElement (file : String) (root : Element) : Logged (List SourceGroup) := do
  let model ← modelElement file root
  let p ← model.elements.foldlM (readEntry file) { groups := [], used := [] }
  Logged.note .debug2 ("The source model has " ++ toString p.used.length ++ " sources in "
    ++ toString p.groups.length ++ " groups")
  return p.groups

def read (files : Files) (path : String) : Logged (List SourceGroup) :=
  Logged.timed .debug1 "Reading the source model" do
    let root ← files.openExisting .missingInput path
    readElement path root

end SourceModel

end SeismicTree

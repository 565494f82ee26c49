import SeismicTree.Geometry.Reading
import SeismicTree.Uncertainty.Basic

/-!
# Reading values of branches

A value is read in the form of its uncertainty type. Whatever is wrong with it is reported as a
fault of the logic tree at the line of the element; what exactly was wrong inside of a geometry is
kept as the value of the failure. Geometry in a logic tree has no default spacing.
-/

namespace SeismicTree.UncertaintyValue

/-- Failures of values and documents, which a reader of values turns into faults of the tree. -/
def isValueFailure (f : Failure) : Bool :=
  match f.kind with
  | .duplicateElement | .undefinedElement | .domain | .logicTree | .markupValidity => true
  | _ => false

/-- A part of a value, with its failure turned into a fault of the tree at an element. -/
def validated {α : Type} (fault : TreeFault) (e : Element) (file : String) (r : Except Failure α) :
    Except Failure α :=
  r.mapError fun f =>
    if isValueFailure f then
      (Failure.logicTree fault file (some e.line)).within fun c =>
        { c with value := some f.message, elementName := some e.name }
    else f

def textFault (fault : TreeFault) (e : Element) (file : String) : Failure :=
  (Failure.logicTree fault file (some e.line)).within fun c => { c with value := some e.text }

def readNumber (e : Element) (file : String) : Except Failure UncertaintyValue :=
  match Literal.number? e.text with
  | some x => .ok (.number x)
  | none => .error (textFault .numberExpected e file)

def readPair (e : Element) (file : String) : Except Failure UncertaintyValue :=
  match (Text.tokens e.text).map Literal.number? with
  | [some a, some b] => .ok (.pair a b)
  | _ => .error (textFault .pairExpected e file)

def childOrSelf (e : Element) (name : String) : Element := (e.child? name).getD e

def ratesOf (e : Element) : Except Failure BinnedRates := do
  let minMag ← e.requireNumber "minMag"
  let binWidth ← e.requireNumber "binWidth"
  return { minMag, binWidth, rates := ← Geometry.numbers (← e.requireChild "occurRates").text }

def readRates (e : Element) (file : String) : Except Failure UncertaintyValue :=
  let m := childOrSelf e "incrementalMFD"
  .rates <$> validated .incrementalMfd m file (ratesOf m)

def simpleFaultOf (e : Element) (file : String) : Except Failure SimpleFault :=
  validated .simpleFault e file (Geometry.simpleFault e none)

def complexFaultOf (e : Element) (file : String) : Except Failure ComplexFault :=
  validated .complexFault e file (Geometry.complexFault e none)

/-- A geometry inside of a surface. -/
def surfacePart (file : String) (e : Element) : Except Failure SingleSurface :=
  if e.name = "simpleFaultGeometry" then .simple <$> simpleFaultOf e file
  else if e.name = "complexFaultGeometry" then .complex <$> complexFaultOf e file
  else if e.name = "planarSurface" then
    .planar <$> validated .planarFault e file (Geometry.planarSurface e none)
  else
    .error ((Failure.logicTree .surfaceKind file (some e.line)).within fun c =>
      { c with elementName := some e.name })

def readSurface (e : Element) (file : String) : Except Failure UncertaintyValue := do
  match ((e.child? "surface").map Element.elements).getD [] with
  | [] => throw (Failure.logicTree .noSurface file (some e.line))
  | first :: more =>
    let s ← surfacePart file first
    return .surface (Surface.assemble s (← more.mapM (surfacePart file)))

def read (u : Uncertainty) (e : Element) (file : String) : Except Failure UncertaintyValue :=
  match u.form with
  | .number => readNumber e file
  | .model => .ok (.model e.text)
  | .pair => readPair e file
  | .rates => readRates e file
  | .simpleFault => .simpleFault <$> simpleFaultOf (childOrSelf e "simpleFaultGeometry") file
  | .complexFault => .complexFault <$> complexFaultOf (childOrSelf e "complexFaultGeometry") file
  | .surface => readSurface e file

end SeismicTree.UncertaintyValue

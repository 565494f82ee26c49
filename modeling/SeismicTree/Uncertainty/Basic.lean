import SeismicTree.Source.Basic

/-!
# Uncertainties

There are fourteen types of uncertainty, one of which stands for every name that is not known. A
value has one of seven forms, and each type has the form its values take. Four types choose a model
and never change a source.
-/

namespace SeismicTree

inductive Uncertainty where
  | unknown | gmpeModel | sourceModel | extendModel
  | maxMagGRRelative | bGRRelative | maxMagGRAbsolute | abGRAbsolute | incrementalMFDAbsolute
  | simpleFaultDipRelative | simpleFaultDipAbsolute
  | simpleFaultGeometryAbsolute | complexFaultGeometryAbsolute
  | characteristicFaultGeometryAbsolute
  deriving DecidableEq, Repr

namespace Uncertainty

def all : List Uncertainty :=
  [unknown, gmpeModel, sourceModel, extendModel, maxMagGRRelative, bGRRelative, maxMagGRAbsolute,
    abGRAbsolute, incrementalMFDAbsolute, simpleFaultDipRelative, simpleFaultDipAbsolute,
    simpleFaultGeometryAbsolute, complexFaultGeometryAbsolute,
    characteristicFaultGeometryAbsolute]

def name : Uncertainty → String
  | unknown => "unknown"
  | gmpeModel => "gmpeModel"
  | sourceModel => "sourceModel"
  | extendModel => "extendModel"
  | maxMagGRRelative => "maxMagGRRelative"
  | bGRRelative => "bGRRelative"
  | maxMagGRAbsolute => "maxMagGRAbsolute"
  | abGRAbsolute => "abGRAbsolute"
  | incrementalMFDAbsolute => "incrementalMFDAbsolute"
  | simpleFaultDipRelative => "simpleFaultDipRelative"
  | simpleFaultDipAbsolute => "simpleFaultDipAbsolute"
  | simpleFaultGeometryAbsolute => "simpleFaultGeometryAbsolute"
  | complexFaultGeometryAbsolute => "complexFaultGeometryAbsolute"
  | characteristicFaultGeometryAbsolute => "characteristicFaultGeometryAbsolute"

/-- The type with a name; `unknown` if there is none. -/
def ofName (name : String) : Uncertainty := (all.find? (·.name == name)).getD unknown

def index (u : Uncertainty) : Nat := all.idxOf u

/-- Whether values of the type modify sources. The others choose a model. -/
def appliesToSources : Uncertainty → Bool
  | unknown | gmpeModel | sourceModel | extendModel => false
  | _ => true

inductive Form where
  | number | model | pair | rates | simpleFault | complexFault | surface
  deriving DecidableEq, Repr

def form : Uncertainty → Form
  | gmpeModel | sourceModel | extendModel => .model
  | abGRAbsolute => .pair
  | incrementalMFDAbsolute => .rates
  | simpleFaultGeometryAbsolute => .simpleFault
  | complexFaultGeometryAbsolute => .complexFault
  | characteristicFaultGeometryAbsolute => .surface
  | _ => .number

end Uncertainty

/-- The value of a branch. Rates are not checked before they are applied. -/
inductive UncertaintyValue where
  | number (x : Binary64)
  | model (reference : String)
  | pair (a b : Binary64)
  | rates (rates : BinnedRates)
  | simpleFault (geometry : SimpleFault)
  | complexFault (geometry : ComplexFault)
  | surface (surface : Surface)
  deriving DecidableEq

def UncertaintyValue.form : UncertaintyValue → Uncertainty.Form
  | .number _ => .number
  | .model _ => .model
  | .pair .. => .pair
  | .rates _ => .rates
  | .simpleFault _ => .simpleFault
  | .complexFault _ => .complexFault
  | .surface _ => .surface

end SeismicTree

import SeismicTree.Log
import SeismicTree.Uncertainty.Basic

/-!
# Applying a value to a source

A value becomes a modification of the source or of its distribution. A type that chooses a model
applies to no source, and a value in the form of another type is refused. A source is either
modified as a whole or left alone.
-/

namespace SeismicTree

inductive Modification where
  | ofSource (change : SourceChange)
  | ofMfd (change : MfdChange)

namespace Uncertainty

/-- The modification for a value, if the type applies to sources and the value has its form. -/
def modification? : Uncertainty → UncertaintyValue → Option Modification
  | maxMagGRRelative, .number x => some (.ofMfd (.incrementMaxMag x))
  | bGRRelative, .number x => some (.ofMfd (.incrementB x))
  | maxMagGRAbsolute, .number x => some (.ofMfd (.setMaxMag x))
  | abGRAbsolute, .pair a b => some (.ofMfd (.setAB a b))
  | incrementalMFDAbsolute, .rates r => some (.ofMfd (.setRates r))
  | simpleFaultDipRelative, .number x => some (.ofSource (.adjustDip x))
  | simpleFaultDipAbsolute, .number x => some (.ofSource (.setDip x))
  | simpleFaultGeometryAbsolute, .simpleFault g => some (.ofSource (.setSimpleFault g))
  | complexFaultGeometryAbsolute, .complexFault g => some (.ofSource (.setComplexFault g))
  | characteristicFaultGeometryAbsolute, .surface s => some (.ofSource (.setSurface s))
  | _, _ => none

end Uncertainty

namespace Source

def modifyMfd (s : Source) (change : MfdChange) : Except Failure Source :=
  match s.mfd with
  | some m => (fun m' => { s with mfd := some m' }) <$> m.modify change
  | none => .error { cause := .noMfd, context := { source := some s.id } }

def carryOut (s : Source) : Modification → Except Failure Source
  | .ofSource change => s.modify change
  | .ofMfd change => s.modifyMfd change

/-- The source with the value of a type of uncertainty applied. A failure carries the id of the
source. -/
def apply (u : Uncertainty) (value : UncertaintyValue) (s : Source) : Except Failure Source :=
  if u.appliesToSources then
    match u.modification? value with
    | some m => withContext (fun c => { c with source := some s.id }) (s.carryOut m)
    | none => .error { cause := .valueMismatch }
  else
    .error { cause := .misuse .inapplicableUncertainty
             context := { uncertainty := some u.name, source := some s.id } }

/-- The application of a value, which is logged unless the type applies to no source. -/
def applyLogged (u : Uncertainty) (value : UncertaintyValue) (s : Source) : Logged Source := do
  if u.appliesToSources then Logged.note .debug4 ("Applying " ++ u.name ++ " to " ++ s.id)
  s.apply u value

end Source

end SeismicTree

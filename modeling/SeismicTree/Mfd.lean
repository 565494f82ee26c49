import SeismicTree.Failure.Basic
import SeismicTree.Number.Decimal

/-!
# Magnitude-frequency distributions

A distribution is a truncated Gutenberg-Richter law or a list of rates for bins of equal width.
Each supports some of the modifications; a modification is checked as a whole before anything is
replaced, so a refused one leaves nothing half done.
-/

namespace SeismicTree

/-- Rates for magnitude bins of equal width, from the bin of `minMag` on. -/
structure BinnedRates where
  minMag : Binary64
  binWidth : Binary64
  rates : List Binary64
  deriving DecidableEq

structure GutenbergRichter where
  minMag : Binary64
  maxMag : Binary64
  binWidth : Binary64
  aValue : Binary64
  bValue : Binary64
  deriving DecidableEq

def GutenbergRichter.checked (g : GutenbergRichter) : Except Failure GutenbergRichter := do
  if g.binWidth ≤ 0 then throw (Failure.domain .binWidth g.binWidth.sixDecimals)
  if g.minMag < 0 ∨ g.maxMag ≤ g.minMag then
    throw (Failure.domain .magnitudeRange (g.minMag.sixDecimals ++ " " ++ g.maxMag.sixDecimals))
  if g.bValue ≤ 0 then throw (Failure.domain .bValue g.bValue.sixDecimals)
  return g

def BinnedRates.checked (r : BinnedRates) : Except Failure BinnedRates := do
  if r.binWidth ≤ 0 then throw (Failure.domain .binWidth r.binWidth.sixDecimals)
  if r.rates.isEmpty then throw { cause := .domain .noRates }
  if r.rates.any (· < 0) then throw { cause := .domain .negativeRates }
  return r

inductive Mfd where
  | gutenbergRichter (law : GutenbergRichter)
  | binned (rates : BinnedRates)
  deriving DecidableEq

inductive MfdChange where
  | setAB (aValue bValue : Binary64)
  | incrementB (delta : Binary64)
  | incrementMaxMag (delta : Binary64)
  | setMaxMag (maxMag : Binary64)
  | setRates (rates : BinnedRates)

def MfdChange.name : MfdChange → String
  | .setAB .. => "set_ab"
  | .incrementB _ => "increment_b"
  | .incrementMaxMag _ => "increment_max_mag"
  | .setMaxMag _ => "set_max_mag"
  | .setRates _ => "set_mfd"

namespace Mfd

def kindName : Mfd → String
  | gutenbergRichter _ => "truncGutenbergRichterMFD"
  | binned _ => "incrementalMFD"

def unsupported (m : Mfd) (change : MfdChange) : Failure :=
  { cause := .unsupported change.name m.kindName, context := { operation := some change.name } }

def modify (m : Mfd) (change : MfdChange) : Except Failure Mfd :=
  match m, change with
  | gutenbergRichter g, .setAB a b =>
    gutenbergRichter <$> { g with aValue := a, bValue := b }.checked
  | gutenbergRichter g, .incrementB d =>
    gutenbergRichter <$> { g with bValue := g.bValue + d }.checked
  | gutenbergRichter g, .incrementMaxMag d =>
    gutenbergRichter <$> { g with maxMag := g.maxMag + d }.checked
  | gutenbergRichter g, .setMaxMag x => gutenbergRichter <$> { g with maxMag := x }.checked
  | binned _, .setRates r => binned <$> r.checked
  | _, _ => .error (m.unsupported change)

end Mfd

end SeismicTree

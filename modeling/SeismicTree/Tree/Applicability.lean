import SeismicTree.Text.Tokens
import SeismicTree.Tree.Basic

/-!
# Applicability

A branch set applies to the sources that pass all of its filters. Filters are tried in the order of
their keys and the first that is not passed ends the test, so a filter behind it is not looked at.
-/

namespace SeismicTree

namespace Decision

def passes (d : Decision) (key value : String) (source : Source) : Except Failure Bool :=
  if key = "applyToTectonicRegionType" then .ok (source.region == value)
  else if key = "applyToSourceType" then
    match SourceKind.ofName? value with
    | some kind => .ok (source.kind == kind)
    | none =>
      .error { cause := .misuse .unknownSourceType
               context := { filter := some key, value := some value, branchSet := some d.id } }
  else if key = "applyToSources" then .ok ((Text.tokens value).contains source.id)
  else
    .error { cause := .misuse .unknownFilter
             context := { filter := some key, branchSet := some d.id } }

/-- Whether a source passes the filters of a list, tried in order. -/
def passesAll (d : Decision) (source : Source) : List (String × String) → Except Failure Bool
  | [] => .ok true
  | (key, value) :: rest => do
    if ← d.passes key value source then d.passesAll source rest else return false

def applies (d : Decision) (source : Source) : Except Failure Bool :=
  d.passesAll source d.filters.entries

end Decision

end SeismicTree

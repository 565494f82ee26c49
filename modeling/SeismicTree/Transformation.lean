import SeismicTree.Tree.Applicability
import SeismicTree.Tree.Selection
import SeismicTree.Uncertainty.Application

/-!
# Transforming source groups

The selections of a path are applied to every source of a group. A plain selection changes the
working copy of a source. A collapsed one adds a scaled copy of the working copy for each of its
branches. The working copy itself is among the results only if a plain selection came before every
copy, and it is taken as it is after the last selection. A source that no selection applies to is
handed on as it is.
-/

namespace SeismicTree

/-- The state of a source under transformation. `placed` says whether the working copy is among the
results, in front of the copies. -/
structure Transforming where
  working : Source
  placed : Bool
  copies : List Source
  changes : Nat

namespace Transforming

def start (source : Source) : Transforming := ⟨source, false, [], 0⟩

def results (t : Transforming) : List Source :=
  if t.placed then t.working :: t.copies else t.copies

def scaledCopy (u : Uncertainty) (source : Source) (c : Choice Binary64) : Logged Source :=
  Source.applyLogged u c.value { source with scalingRate := c.weight }

def step (t : Transforming) (selection : Selection Binary64) : Logged Transforming := do
  let d := selection.set.decision
  if d.collapsed then
    if t.working.isMultiSurface then
      Logged.fail
        { cause := .collapsedMultiSurface
          context := { source := some t.working.id, branchSet := some d.id } }
    let choices := selection.set.branches.map (·.choice)
    let copies ← choices.mapM (scaledCopy d.uncertainty t.working)
    return { t with copies := t.copies ++ copies, changes := t.changes + choices.length }
  else
    let working ← Source.applyLogged d.uncertainty selection.value t.working
    return { t with
      working, placed := t.placed || t.copies.isEmpty, changes := t.changes + 1 }

end Transforming

/-- The selections that apply to a source. All filters are tested before any value is applied. -/
def applicable (selections : List (Selection Binary64)) (source : Source) :
    Except Failure (List (Selection Binary64)) :=
  selections.filterMapM fun selection => do
    if ← selection.set.decision.applies source then return some selection else return none

def transformSource (selections : List (Selection Binary64)) (source : Source) :
    Logged (List Source × Nat) := do
  match ← applicable selections source with
  | [] => return ([source], 0)
  | chosen => do
    let t ← chosen.foldlM Transforming.step (Transforming.start source)
    return (t.results, t.changes)

def transformSources (selections : List (Selection Binary64)) :
    List Source → Logged (List Source × Nat)
  | [] => return ([], 0)
  | source :: rest => do
    let (sources, changes) ← transformSource selections source
    let (others, more) ← transformSources selections rest
    return (sources ++ others, changes + more)

/-- The group with the selections applied. Its region and its name stay. -/
def applySelections (selections : List (Selection Binary64)) (group : SourceGroup) :
    Logged SourceGroup :=
  Logged.timed .debug3 "Applying uncertainties" do
    let (sources, changes) ← transformSources selections group.sources
    Logged.note .debug3 ("Group " ++ group.region ++ ": " ++ toString group.sources.length
      ++ " source(s) into " ++ toString sources.length ++ " with " ++ toString changes
      ++ " change(s)")
    return { region := group.region, name := group.name, sources, changes }

end SeismicTree

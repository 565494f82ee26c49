import SeismicTree.Number.Closeness
import SeismicTree.Settings
import SeismicTree.Transformation
import SeismicTree.Tree.Cursor
import SeismicTree.Tree.Sampling

/-!
# Realizations

An analysis enumerates all paths of a tree, or draws samples, and transforms the source groups for
each. Every path counts for the number of paths and for the total weight, but only those within the
limit become realizations. An analysis that fails keeps the realizations from before.
-/

namespace SeismicTree

/-- The outcome of one path: its position among the outcomes, its weight, its identifiers, and the
source groups with its values applied. -/
structure Realization where
  ordinal : Nat
  weight : Binary64
  ids : List String
  groups : List SourceGroup
  deriving DecidableEq

structure Analysis where
  tree : LogicTree
  groups : List SourceGroup
  settings : Settings

/-- What an analysis has found so far. -/
structure Findings where
  pathCount : Nat
  totalWeight : Binary64
  warnings : List String
  realizations : List Realization
  deriving DecidableEq

/-- The findings of an analysis, the failure that ended it, if any, and its log. -/
structure AnalysisRun where
  findings : Findings
  failure : Option Failure
  entries : List Log.Entry

namespace Findings

def none : Findings := ⟨0, 0, [], []⟩

def warningText (f : Findings) : String := "; ".intercalate f.warnings

def count (f : Findings) (weight : Binary64) : Findings :=
  { f with pathCount := f.pathCount + 1, totalWeight := f.totalWeight + weight }

def add (f : Findings) (r : Realization) : Findings :=
  { f with realizations := f.realizations ++ [r] }

def warn (f : Findings) (text : String) : Findings := { f with warnings := f.warnings ++ [text] }

end Findings

namespace AnalysisRun

def after (entries : List Log.Entry) (r : AnalysisRun) : AnalysisRun :=
  { r with entries := entries ++ r.entries }

end AnalysisRun

namespace Analysis

/-- The groups with the values along identifiers applied. Choices of models are left out, and a
failure carries the ordinal of the realization. -/
def transform (a : Analysis) (ordinal : Nat) (ids : List String) : Logged (List SourceGroup) := do
  if a.groups.isEmpty then return []
  let selections ← a.tree.selections ids
  let changing := selections.filter (·.set.uncertainty.appliesToSources)
  a.groups.mapM fun g =>
    (applySelections changing g).within fun c => { c with realization := some ordinal }

def realize (a : Analysis) (ordinal : Nat) (weight : Binary64) (ids : List String) :
    Logged Realization := do
  return { ordinal, weight, ids, groups := ← a.transform ordinal ids }

/-- Whether a further path becomes a realization; a limit of zero is none. -/
def withinLimit (a : Analysis) (f : Findings) : Bool :=
  a.settings.limit.val = 0 || f.realizations.length < a.settings.limit.val

def enumerateFrom (a : Analysis) (f : Findings) : List (Path Binary64) → AnalysisRun
  | [] => ⟨f, .none, []⟩
  | p :: rest =>
    let counted := f.count p.weight
    if a.withinLimit f then
      let r := a.realize f.realizations.length p.weight p.ids
      match r.result with
      | .ok realization => (a.enumerateFrom (counted.add realization) rest).after r.entries
      | .error failure => ⟨counted, some failure, r.entries⟩
    else a.enumerateFrom counted rest

/-- The findings with the warnings that a complete enumeration calls for. -/
def concluded (a : Analysis) (f : Findings) : Findings :=
  let limit := a.settings.limit.val
  let f := if Binary64.isClose 1 f.totalWeight 0.000000001 then f
    else f.warn ("The path weights sum up to " ++ f.totalWeight.sixDecimals)
  if 0 < limit ∧ limit < f.pathCount then
    f.warn ("Only " ++ toString limit ++ " of " ++ toString f.pathCount ++ " paths are reported")
  else f

def enumerate (a : Analysis) : AnalysisRun :=
  let r := a.enumerateFrom .none (Cursor.start a.tree).paths
  match r.failure with
  | some _ => r
  | .none =>
    { r with
      findings := a.concluded r.findings
      entries := r.entries ++
        [⟨.debug2, "The logic tree has " ++ toString r.findings.pathCount ++ " paths", false⟩] }

/-- The seed of a sample: the first seed and the position of the sample. -/
def seedOf (s : Settings) (i : Nat) : UInt32 := UInt32.ofNat (s.seed.val + i)

def sampleIds (a : Analysis) (i : Nat) : List String :=
  (a.tree.sample (seedOf a.settings i)).map (·.id)

def sampleFrom (a : Analysis) (f : Findings) : List Nat → AnalysisRun
  | [] => ⟨f, .none, []⟩
  | i :: rest =>
    let ids := a.sampleIds i
    let entry : Log.Entry :=
      ⟨.debug3, "Realization " ++ toString i ++ ": " ++ "~".intercalate ids, false⟩
    let r := a.realize f.realizations.length (1 / Binary64.ofNat a.settings.samples.val) ids
    match r.result with
    | .ok realization => (a.sampleFrom (f.add realization) rest).after (entry :: r.entries)
    | .error failure => ⟨f, some failure, entry :: r.entries⟩

def sample (a : Analysis) : AnalysisRun :=
  a.sampleFrom .none (List.range a.settings.samples.val)

/-- Whether the analysis draws samples instead of going through all paths. -/
def samples (a : Analysis) : Bool := a.settings.samples.val ≠ 0

def timed (process : String) (r : AnalysisRun) : AnalysisRun :=
  { r with entries :=
      ⟨.debug2, process ++ "...", false⟩ :: r.entries ++ [⟨.debug2, "Finished " ++ process, true⟩] }

def run (a : Analysis) : AnalysisRun :=
  let r := if a.samples then timed "Sampling paths" a.sample
    else timed "Enumerating paths" a.enumerate
  match r.failure with
  | some _ => r
  | .none =>
    { r with entries := r.entries ++
        [⟨.debug1, "Produced " ++ toString r.findings.realizations.length ++ " realizations",
          true⟩] }

end Analysis

end SeismicTree

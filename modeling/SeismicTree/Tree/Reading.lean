import SeismicTree.Markup.Files
import SeismicTree.Number.Closeness
import SeismicTree.Text.Tokens
import SeismicTree.Tree.Growth
import SeismicTree.Uncertainty.Reading

/-!
# Reading a logic tree

A description lists branch sets level by level; a set outside of a level makes up a level of its
own. Identifiers of branch sets and of branches are used once in a description. What stops the
reading is a fault of the tree, shown with the line of the element at fault.
-/

namespace SeismicTree

namespace TreeReading

def filterKeys : List String :=
  ["applyToTectonicRegionType", "applyToSourceType", "applyToSources"]

/-- What has been read: the tree, and all identifiers used so far. -/
structure Progress where
  growth : Growth Binary64
  branchIds : List String
  branchSetIds : List String

def Progress.start : Progress := ⟨.start, [], []⟩

def fault (file : String) (e : Element) (f : TreeFault) (change : Context → Context) : Failure :=
  (Failure.logicTree f file (some e.line)).within change

def filtersOf (e : Element) : Filters :=
  Filters.ofList ((filterKeys.map fun key => (key, e.attributeText key)).filter (·.2 ≠ ""))

/-- The identifier of a branch set element, which is not used yet. -/
def branchSetId (file : String) (used : List String) (e : Element) : Except Failure String := do
  let id := e.attributeText "branchSetID"
  if id = "" then throw (fault file e .noBranchSetId fun c => c)
  if used.contains id then
    throw (fault file e .repeatedBranchSetId fun c => { c with branchSet := some id })
  return id

def decision (file id : String) (e : Element) : Except Failure Decision := do
  let typeName := e.attributeText "uncertaintyType"
  let uncertainty := Uncertainty.ofName typeName
  if uncertainty = .unknown then
    throw (fault file e .unknownType fun c =>
      { c with uncertainty := some typeName, branchSet := some id })
  let collapsed ←
    match e.attributeAs Bool "collapsed" with
    | .ok flag => pure (flag.getD false)
    | .error _ =>
      throw (fault file e .collapsedFlag fun c =>
        { c with value := some (e.attributeText "collapsed"), branchSet := some id })
  let filters := filtersOf e
  match filters.find? "applyToSourceType" with
  | some name =>
    if (SourceKind.ofName? name).isNone then
      throw (fault file e .sourceType fun c =>
        { c with
          filter := some "applyToSourceType", value := some name, branchSet := some id })
  | none => pure ()
  return { uncertainty, id, filters, collapsed }

/-- The weight of a branch, more than zero and at most one. -/
def weight (file id : String) (e : Element) : Except Failure Binary64 := do
  match Literal.number? e.text with
  | none =>
    throw (fault file e .numberExpected fun c =>
      { c with value := some e.text, branch := some id })
  | some w =>
    if w ≤ 0 ∨ 1 < w then
      throw (fault file e .weightRange fun c =>
        { c with value := some w.sixDecimals, branch := some id })
    return w

def choice (file : String) (u : Uncertainty) (used : List String) (e : Element) :
    Except Failure (Choice Binary64) := do
  let id := e.attributeText "branchID"
  if id = "" then throw (fault file e .noBranchId fun c => c)
  if used.contains id then
    throw (fault file e .repeatedBranchId fun c => { c with branch := some id })
  match e.child? "uncertaintyModel", e.child? "uncertaintyWeight" with
  | some model, some weightElement =>
    let weight ← weight file id weightElement
    let value ← UncertaintyValue.read u model file
    return { id, weight, value }
  | _, _ => throw (fault file e .incompleteBranch fun c => { c with branch := some id })

/-- The choices of branch elements, with the identifiers used before and among them. -/
def choices (file : String) (u : Uncertainty) (used : List String) :
    List Element → Except Failure (List (Choice Binary64) × List String)
  | [] => .ok ([], used)
  | e :: rest => do
    let c ← choice file u used e
    let (others, used') ← choices file u (used ++ [c.id]) rest
    return (c :: others, used')

/-- The check of the weights of a set: their sum is close to one. -/
def checkWeights (file : String) (d : Decision) (e : Element) (weights : List Binary64) :
    Except Failure Unit := do
  if weights.isEmpty then
    throw (fault file e .emptyBranchSet fun c => { c with branchSet := some d.id })
  let total := totalWeight weights
  if !Binary64.isClose 1 total 0.000001 then
    throw (fault file e .weightSum fun c =>
      { c with value := some total.sixDecimals, branchSet := some d.id })

/-- The leaves that a branch set element is meant for: all of them if it names none. -/
def reachOf (e : Element) : Reach :=
  match Text.tokens (e.attributeText "applyToBranches") with
  | [] => .everyLeaf
  | ids => .named ids

def construct (file : String) (p : Progress) (e : Element) :
    Logged (ListedSet Binary64 × Progress) := do
  let id ← branchSetId file p.branchSetIds e
  let d ← decision file id e
  if !d.filters.isEmpty && !d.uncertainty.appliesToSources then
    Logged.note .warning ("Branch set " ++ id ++ " of " ++ d.uncertainty.name
      ++ " has source filters that never apply")
  let (choices, branchIds) ←
    choices file d.uncertainty p.branchIds (e.elementsNamed "logicTreeBranch")
  checkWeights file d e (choices.map (·.weight))
  return ({ decision := d, choices, reach := reachOf e },
    { p with branchIds, branchSetIds := p.branchSetIds ++ [id] })

def refusal (file : String) (e : Element) : Growth.Refusal → Failure
  | .noOpenLeaf => fault file e .noOpenBranches fun c => c
  | .noSuchLeaf id => fault file e .noSuchLeaf fun c => { c with branch := some id }

/-- Reads one branch set of a level. The root is not meant for any branches. -/
def readSet (file : String) (p : Progress) (e : Element) : Logged Progress := do
  let (s, p) ← construct file p e
  let isRoot := p.growth.tree.isNone
  if isRoot && e.hasAttribute "applyToBranches" then
    Logged.fail (fault file e .rootApplies fun c => { c with branchSet := some s.decision.id })
  let growth ← (p.growth.place s).mapError (refusal file e)
  if !isRoot then Logged.note .debug3 ("Attached branch set " ++ s.decision.id)
  return { p with growth }

def readLevel (file : String) (p : Progress) (sets : List Element) : Logged Progress := do
  let p ← sets.foldlM (readSet file) p
  return { p with growth := p.growth.closeLevel }

/-- Reads a level, or a branch set that makes up a level of its own. -/
def readEntry (file : String) (p : Progress) (e : Element) : Logged Progress :=
  if e.name = "logicTreeBranchingLevel" then
    readLevel file p (e.elementsNamed "logicTreeBranchSet")
  else if e.name = "logicTreeBranchSet" then readLevel file p [e]
  else
    Logged.fail (fault file e .unexpectedNode fun c => { c with elementName := some e.name })

/-- The logic tree element of a document: its root, or a child of it. -/
def treeElement (file : String) (root : Element) : Except Failure Element :=
  if root.name = "logicTree" then .ok root
  else match root.child? "logicTree" with
    | some e => .ok e
    | none => .error (fault file root .noLogicTree fun c => c)

def readLevels (file : String) (e : Element) : Logged Progress :=
  e.elements.foldlM (readEntry file) Progress.start

def readElement (file : String) (root : Element) : Logged LogicTree := do
  let e ← treeElement file root
  let p ← readLevels file e
  match p.growth.tree with
  | none => Logged.fail (fault file e .noBranchSets fun c => c)
  | some tree =>
    Logged.note .debug2
      ("The logic tree has " ++ toString p.growth.openLeaves.length ++ " leaves")
    return tree

end TreeReading

def LogicTree.read (files : Files) (path : String) : Logged LogicTree :=
  Logged.timed .debug1 "Reading the logic tree" do
    let root ← files.openExisting .missingInput path
    TreeReading.readElement path root

end SeismicTree

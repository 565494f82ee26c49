import SeismicTree.Proofs.GeometryFailures
import SeismicTree.Proofs.WellFormed

/-!
# How the reading of a tree can fail

Whatever a document holds, reading a tree from it gives a tree or one kind of failure, and the
failure is one of an element of the document: the element is at fault, the failure shows its line if
the line is known, and it shows the file that was to be read. No failure of a value or of a geometry
gets out as it is. Nothing is said about files that cannot be opened, nor which of several faults is
found.
-/

namespace SeismicTree

namespace TreeReading

/-- What is wrong with an element that has a fault. Whether an identifier is used elsewhere, or is
one of an open leaf, is not seen at the element itself. -/
def AtFault (file : String) (e : Element) : TreeFault → Prop
  | .noLogicTree => e.name ≠ "logicTree" ∧ e.child? "logicTree" = none
  | .unexpectedNode => e.name ≠ "logicTreeBranchingLevel" ∧ e.name ≠ "logicTreeBranchSet"
  | .noBranchSets => ∀ entry ∈ e.elements, entrySets entry = []
  | .rootApplies => e.hasAttribute "applyToBranches" = true
  | .noOpenBranches => Text.tokens (e.attributeText "applyToBranches") = []
  | .noSuchLeaf => Text.tokens (e.attributeText "applyToBranches") ≠ []
  | .noBranchSetId => e.attributeText "branchSetID" = ""
  | .repeatedBranchSetId => e.attributeText "branchSetID" ≠ ""
  | .unknownType => Uncertainty.ofName (e.attributeText "uncertaintyType") = .unknown
  | .collapsedFlag => Fails (e.attributeAs Bool "collapsed")
  | .sourceType => SourceKind.ofName? (e.attributeText "applyToSourceType") = none
  | .noBranchId => e.attributeText "branchID" = ""
  | .repeatedBranchId => e.attributeText "branchID" ≠ ""
  | .incompleteBranch =>
    e.child? "uncertaintyModel" = none ∨ e.child? "uncertaintyWeight" = none
  | .numberExpected => Literal.number? e.text = none
  | .weightRange => ∃ w, Literal.number? e.text = some w ∧ (w ≤ 0 ∨ 1 < w)
  | .emptyBranchSet => e.elementsNamed "logicTreeBranch" = []
  | .weightSum => ∃ u cs, (e.elementsNamed "logicTreeBranch").mapM (choice file u []) = .ok cs ∧
      Binary64.isClose 1 (totalWeight (cs.map (·.weight))) 0.000001 = false
  | .pairExpected => ∀ a b, (Text.tokens e.text).map Literal.number? ≠ [some a, some b]
  | .simpleFault => Fails (Geometry.simpleFault e none)
  | .complexFault => Fails (Geometry.complexFault e none)
  | .planarFault => Fails (Geometry.planarSurface e none)
  | .incrementalMfd => Fails (UncertaintyValue.ratesOf e)
  | .noSurface => ((e.child? "surface").map Element.elements).getD [] = []
  | .surfaceKind => e.name ∉ ["simpleFaultGeometry", "complexFaultGeometry", "planarSurface"]
  | .stated _ => False

/-- A failure that shows the file and the line of an element of the document with a fault. -/
def Located (file : String) (root : Element) (f : Failure) : Prop :=
  ∃ fault e, root.Contains e ∧ AtFault file e fault ∧
    f.cause = .logicTree fault file (Failure.knownLine (some e.line)) ∧
    f.context.file = some file ∧
    f.context.line = (Failure.knownLine (some e.line)).map Int.ofNat

variable {file : String} {root e : Element}

/-- What is added to a failure on its way out leaves the place alone. -/
theorem Located.within {f : Failure} (h : Located file root f) {change : Context → Context}
    (keeps : ∀ c, (change c).file = c.file ∧ (change c).line = c.line) :
    Located file root (f.within change) := by
  obtain ⟨fault, e, hinside, hwrong, hcause, hfile, hline⟩ := h
  exact ⟨fault, e, hinside, hwrong, hcause, (keeps f.context).1.trans hfile,
    (keeps f.context).2.trans hline⟩

section Values
open UncertaintyValue

end Values

section Sets

end Sets

section Levels

end Levels

end TreeReading

/-- The texts of faults have no NUL in them, so they are shown whole. -/
theorem TreeFault.nul_not_mem_text {fault : TreeFault} (fixed : ∀ text, fault ≠ .stated text) :
    '\x00' ∉ fault.text.toList := by
  cases fault with
  | stated text => exact absurd rfl (fixed text)
  | _ => decide +kernel

theorem nul_not_mem_toString (n : Nat) : '\x00' ∉ (toString n).toList := by
  intro h
  rw [Nat.toString_eq_repr, Nat.repr, String.toList_ofList] at h
  have hdigit := Nat.isDigit_of_mem_toDigits (by decide) (by decide) h
  revert hdigit
  decide

namespace Failure

theorem nul_not_mem_knownLine (line : Int) :
    '\x00' ∉ (((knownLine (some line)).map toString).getD "?").toList := by
  cases knownLine (some line) with
  | none => decide
  | some n => exact nul_not_mem_toString n

end Failure

/-- A description of a fault of a tree is shown whole if the path of the file is. -/
theorem TreeReading.Located.message {file : String} {root : Element} {f : Failure}
    (h : Located file root f) (path : '\x00' ∉ file.toList) : f.message = f.cause.message := by
  obtain ⟨fault, e, _, hwrong, hcause, _, _⟩ := h
  have hfixed : ∀ text, fault ≠ .stated text := by
    rintro text rfl
    exact hwrong
  have happend : ∀ {a b : String}, '\x00' ∉ a.toList → '\x00' ∉ b.toList →
      '\x00' ∉ (a ++ b).toList := by
    intro a b ha hb hmem
    rw [String.toList_append, List.mem_append] at hmem
    exact hmem.elim ha hb
  refine Text.shown_of_not_mem ?_
  rw [hcause]
  refine happend (happend (happend (happend (happend ?_ path) ?_) ?_) ?_) ?_
  · decide
  · decide
  · exact Failure.nul_not_mem_knownLine e.line
  · decide
  · exact TreeFault.nul_not_mem_text hfixed

end SeismicTree

import SeismicTree.Markup.Call
import SeismicTree.Markup.Reader

/-!
# Outlines

The outline of an element is what the element means: its name, its attributes in order, its text and
its children in order. A document that was read has an outline, in which blanks around children do
not count. Calls on a writer have one too, as a draft of the open elements to which each successful
call adds. Neither knows how anything is written.
-/

namespace SeismicTree

structure Outline where
  name : String
  attributes : List (String × String)
  text : String
  children : List Outline

def Outline.ofName (name : String) : Outline :=
  { name, attributes := [], text := "", children := [] }

namespace Node

def isElement : Node → Bool
  | element .. => true
  | _ => false

/-- The text of an element with the given children. Blanks around child elements are left out. -/
def textOf (children : List Node) : String :=
  let texts := children.filterMap text?
  String.join <|
    if children.any isElement then texts.filter fun t => !(Text.trim t).isEmpty else texts

mutual

/-- The outline of an element; nothing for any other node. -/
def outlines : Node → List Outline
  | element name _ attributes children =>
    [{ name, attributes, text := textOf children, children := outlinesAll children }]
  | _ => []

def outlinesAll : List Node → List Outline
  | [] => []
  | n :: rest => outlines n ++ outlinesAll rest

end

theorem outlinesAll_append (ns ms : List Node) :
    outlinesAll (ns ++ ms) = outlinesAll ns ++ outlinesAll ms := by
  induction ns with
  | nil => rfl
  | cons n ns ih => rw [List.cons_append, outlinesAll, outlinesAll, ih, List.append_assoc]

theorem any_isElement_of_outlines {ns : List Node} (h : outlinesAll ns ≠ []) :
    ns.any isElement = true := by
  induction ns with
  | nil => exact absurd rfl h
  | cons n ns ih =>
    cases n with
    | element name line attributes children => rfl
    | text content => exact ih h
    | other => exact ih h

def BlankTexts (ns : List Node) : Prop := ∀ t ∈ ns.filterMap text?, (Text.trim t).isEmpty = true

theorem BlankTexts.reverse {ns : List Node} (h : BlankTexts ns) : BlankTexts ns.reverse := by
  intro t ht
  rw [List.filterMap_reverse] at ht
  exact h t (List.mem_reverse.mp ht)

/-- A node with an outline is no text. -/
theorem BlankTexts.cons {ns : List Node} (h : BlankTexts ns) {n : Node} {o : Outline}
    (outline : n.outlines = [o]) : BlankTexts (n :: ns) := by
  cases n with
  | element name line attributes children => exact h
  | text content => cases outline
  | other => cases outline

theorem textOf_of_blankTexts {ns : List Node} (blank : BlankTexts ns)
    (children : outlinesAll ns ≠ []) : textOf ns = "" := by
  have hnone : (ns.filterMap text?).filter (fun t => !(Text.trim t).isEmpty) = [] := by
    refine List.filter_eq_nil_iff.mpr fun t ht => ?_
    simp [blank t ht]
  rw [textOf, if_pos (any_isElement_of_outlines children), hnone]
  rfl

end Node

namespace Markup

/-- A value as it is meant. -/
def Value.shown : Value → String
  | .text s => s
  | .integer n => toString n
  | .number x => x.twelveDigits
  | .flag b => if b then "true" else "false"

/-- A text has no NUL in it. Values of other types have none anyway. -/
def Value.Plain : Value → Prop
  | .text s => '\x00' ∉ s.toList
  | _ => True

instance : (v : Value) → Decidable v.Plain
  | .text _ => inferInstanceAs (Decidable (_ ∉ _))
  | .integer _ | .number _ | .flag _ => isTrue trivial

theorem Value.Plain.chars_eq {v : Value} (plain : v.Plain) : v.chars = v.shown.toList := by
  cases v with
  | text s => exact Text.untilNul_of_not_mem plain
  | integer n => rfl
  | number x => rfl
  | flag b => cases b <;> rfl

/-- A name is not empty, and has no character of markup and no NUL in it. -/
def Named (name : String) : Prop :=
  name ≠ "" ∧ ∀ c ∈ name.toList, isNameChar c = true ∧ c ≠ '\x00'

instance (name : String) : Decidable (Named name) :=
  have := List.decidableBAll (fun c => isNameChar c = true ∧ c ≠ '\x00') name.toList
  instDecidableAnd

theorem Named.untilNul {name : String} (h : Named name) : Text.untilNul name = name.toList :=
  Text.untilNul_of_not_mem fun hnul => (h.2 _ hnul).2 rfl

theorem Named.toList_ne_nil {name : String} (h : Named name) : name.toList ≠ [] :=
  fun hnil => h.1 (String.toList_eq_nil_iff.mp hnil)

namespace Call

def Plain : Call → Prop
  | addRoot name => Named name
  | addChild _ name => Named name
  | addAttribute _ name value => Named name ∧ value.Plain
  | addText _ value => value.Plain
  | close => True
  | move => True
  | moveAt _ => True

instance : (call : Call) → Decidable call.Plain
  | addRoot name => inferInstanceAs (Decidable (Named name))
  | addChild _ name => inferInstanceAs (Decidable (Named name))
  | addAttribute _ name value => inferInstanceAs (Decidable (Named name ∧ value.Plain))
  | addText _ value => inferInstanceAs (Decidable value.Plain)
  | close | move | moveAt _ => isTrue trivial

/-- The depth of the open element that a call adds to, if it adds to one. -/
def depth? : Call → Option Nat
  | addChild depth _ => some depth
  | addAttribute depth _ _ => some depth
  | addText depth _ => some depth
  | addRoot _ => none
  | close => none
  | move => none
  | moveAt _ => none

end Call

/-- The outlines of the open elements so far, the innermost first, and that of the root once it is
closed. -/
structure Draft where
  elements : List Outline
  root : Option Outline

namespace Draft

def empty : Draft := ⟨[], none⟩

/-- One more element inside of the innermost one. -/
def opening (d : Draft) (name : String) : Draft :=
  { d with elements := .ofName name :: d.elements }

def alter (d : Draft) (change : Outline → Outline) : Draft :=
  match d.elements with
  | [] => d
  | o :: outer => { d with elements := change o :: outer }

/-- The innermost element becomes the last child of the one around it, or the root. -/
def close (d : Draft) : Draft :=
  match d.elements with
  | [] => d
  | [o] => { elements := [], root := some o }
  | o :: p :: outer =>
    { d with elements := { p with children := p.children ++ [o] } :: outer }

def closeAll (d : Draft) : Draft := d.elements.foldl (fun d' _ => d'.close) d

/-- What a successful call adds. -/
def record (d : Draft) : Call → Draft
  | .addRoot name => d.opening name
  | .addChild _ name => d.opening name
  | .addAttribute _ name value =>
    d.alter fun o => { o with attributes := o.attributes ++ [(name, value.shown)] }
  | .addText _ value => d.alter fun o => { o with text := o.text ++ value.shown }
  | .close => d.close
  | .move => d
  | .moveAt _ => d

def ofCalls (calls : List Call) : Draft := calls.foldl record empty

end Draft

end Markup

/-- Those of the calls that succeed, when they are made one after the other. -/
def Writer.accepted (w : Writer) : List Markup.Call → List Markup.Call
  | [] => []
  | call :: rest =>
    let step := w.after call
    if step.1.isOk then call :: accepted step.2 rest else accepted step.2 rest

end SeismicTree

import SeismicTree.Failure.Basic
import SeismicTree.Text.Literal
import SeismicTree.Text.Tokens

/-!
# Elements of a document

A document is a tree of nodes. Only elements and texts are looked at; every other node is kept as
a place holder, because it counts as a node but holds nothing to read. An attribute is the first
one with its name. The text of an element is its first text alone; text behind a child element
is not appended to it.
-/

namespace SeismicTree

inductive Node where
  | element (name : String) (line : Int) (attributes : List (String × String))
      (children : List Node)
  | text (content : String)
  | other

/-- An element with the file it was read from, which is empty if the document has no file. -/
structure Element where
  file : String
  name : String
  line : Int
  attributes : List (String × String)
  children : List Node

class Readable (α : Type) where
  read? : String → Option α
  fault : MarkupFault

instance : Readable Int32 := ⟨Literal.integer?, .notInteger⟩
instance : Readable Binary64 := ⟨Literal.number?, .notNumber⟩
instance : Readable Bool := ⟨Literal.flag?, .notFlag⟩

/-- Reads a text as a whole; a text that cannot be read is shown with the failure. -/
def Readable.read (α : Type) [Readable α] (text : String) : Except Failure α :=
  match Readable.read? text with
  | some a => .ok a
  | none => .error { cause := .markup (Readable.fault α), context := { value := some text } }

theorem Readable.read_eq_ok {α : Type} [Readable α] {text : String} {a : α} :
    Readable.read α text = .ok a ↔ Readable.read? text = some a := by
  rw [Readable.read]
  cases Readable.read? (α := α) text <;> simp

theorem Readable.read_eq_error {α : Type} [Readable α] {text : String} {f : Failure} :
    Readable.read α text = .error f ↔ Readable.read? (α := α) text = none ∧
      { cause := .markup (Readable.fault α), context := { value := some text } } = f := by
  rw [Readable.read]
  cases Readable.read? (α := α) text <;> simp

def Node.element? (file : String) : Node → Option Element
  | .element name line attributes children => some ⟨file, name, line, attributes, children⟩
  | _ => none

def Node.text? : Node → Option String
  | .text content => some content
  | _ => none

namespace Element

def hasAttribute (e : Element) (name : String) : Bool :=
  e.attributes.any (·.1 == name)

/-- The value of an attribute without the blanks around it; the empty text if there is none. -/
def attributeText (e : Element) (name : String) : String :=
  match e.attributes.find? (·.1 == name) with
  | some (_, value) => Text.trim value
  | none => ""

theorem attributeText_of_absent (e : Element) {name : String} (h : e.hasAttribute name = false) :
    e.attributeText name = "" := by
  have hnone : e.attributes.find? (·.1 == name) = none :=
    List.find?_eq_none.mpr fun a ha => by
      rw [hasAttribute, List.any_eq_false] at h
      exact h a ha
  rw [attributeText, hnone]

/-- The first text of the element without the blanks around it; the empty text if there is
none. -/
def text (e : Element) : String :=
  match e.children.findSome? Node.text? with
  | some content => Text.trim content
  | none => ""

/-- The value of an attribute that is read as something; nothing if it is absent or blank. -/
def attributeAs (α : Type) [Readable α] (e : Element) (name : String) : Except Failure (Option α) :=
  if e.attributeText name = "" then .ok none
  else withContext
    (fun c => { c with
      elementName := some e.name, attributeName := some name, line := some e.line,
      file := some e.file })
    (Option.some <$> Readable.read α (e.attributeText name))

def textAs (α : Type) [Readable α] (e : Element) : Except Failure α :=
  withContext
    (fun c => { c with elementName := some e.name, line := some e.line, file := some e.file })
    (Readable.read α e.text)

def elements (e : Element) : List Element := e.children.filterMap (Node.element? e.file)

def elementsNamed (e : Element) (name : String) : List Element := e.elements.filter (·.name == name)

/-- The first child element with a name; any name will do if it is empty. -/
def child? (e : Element) (name : String) : Option Element :=
  e.elements.find? fun c => name == "" || c.name == name

/-- The first child element with a name, which has to be there. -/
def requireChild (e : Element) (name : String) : Except Failure Element :=
  match e.child? name with
  | some c => .ok c
  | none =>
    .error { cause := .markup .missingElement, context := { elementName := some name } }

def requireNumber (e : Element) (name : String) : Except Failure Binary64 := do
  match ← e.attributeAs Binary64 name with
  | some x => return x
  | none =>
    throw { cause := .markup .missingAttribute
            context := { attributeName := some name, elementName := some e.name } }

end Element

end SeismicTree

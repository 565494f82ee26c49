import SeismicTree.Failure.Basic
import SeismicTree.Number.Decimal
import SeismicTree.Text.Ending

/-!
# Writing documents

A writer holds the elements that are open, the innermost first, and the text written so far. Only an
active element takes attributes, text or a child; an element that has a child takes no text, one
that has text takes no child, and neither takes further attributes. A call that is refused leaves a
writer behind as well, because the caller goes on with it; it is not claimed that a refused call
writes nothing.

An element is inactive while another one is open inside of it. The inner one hands the writing back
when it ends, but it knows only the place where the outer one was when it was opened: an outer
element that has been moved from there stays inactive. That place has to be there still. Only the
innermost element is ever ended.
-/

namespace SeismicTree

namespace Markup

/-- What an element has received last, and so what it still accepts. -/
inductive Phase where
  | attributes | elements | text
  deriving DecidableEq, Repr

/-- An element whose end is still to be written. It takes something only if it is active, and at its
end it may hand the writing back to the element around it. -/
structure OpenElement where
  name : String
  phase : Phase
  active : Bool
  handsBack : Bool
  deriving DecidableEq, Repr

/-- The elements around one that has ended, the innermost first. -/
def OpenElement.handBack (e : OpenElement) (outer : List OpenElement) : List OpenElement :=
  if e.handsBack then outer.modifyHead ({ · with active := true }) else outer

/-- Where the text goes. A refusing sink drops all text and shows it only at the end. -/
inductive Sink where
  | accepting | refusing
  deriving DecidableEq, Repr

inductive Value where
  | text (s : String)
  | integer (n : Int)
  | number (x : Binary64)
  | flag (b : Bool)

def escapeChar (c : Char) : List Char :=
  if c = '&' then "&amp;".toList
  else if c = '<' then "&lt;".toList
  else if c = '"' then "&quot;".toList
  else [c]

def escape (cs : List Char) : List Char := cs.flatMap escapeChar

/-- The characters of a value, before any is escaped. -/
def Value.chars : Value → List Char
  | .text s => Text.untilNul s
  | .integer n => (toString n).toList
  | .number x => x.twelveDigits.toList
  | .flag b => (if b then "true" else "false").toList

end Markup

open Markup

/-- A document in writing. `elements` are the open ones, the innermost first. -/
structure Writer where
  indented : Bool
  sink : Sink
  rooted : Bool
  elements : List OpenElement
  written : List Char

/-- A call on a writer: it may be refused, and it leaves a writer behind in either case. -/
abbrev Writing := ExceptT Failure (StateM Writer)

namespace Writer

/-- Two spaces for every level of depth. -/
def indentation (w : Writer) (depth : Nat) : List Char :=
  if w.indented then List.replicate (2 * depth) ' ' else []

def emit (w : Writer) (cs : List Char) : Writer :=
  match w.sink with
  | .accepting => { w with written := w.written ++ cs }
  | .refusing => w

def begin (indented : Bool) (sink : Sink) : Writer :=
  Writer.emit ⟨indented, sink, false, [], []⟩ "<?xml version=\"1.0\" encoding=\"UTF-8\"?>\n".toList

/-- The open element at a depth; the root has depth zero. -/
def elementAt? (w : Writer) (depth : Nat) : Option OpenElement := w.elements.reverse[depth]?

def isActive (w : Writer) (depth : Nat) : Bool := (w.elementAt? depth).any (·.active)

def changeAt (w : Writer) (depth : Nat) (change : OpenElement → OpenElement) : Writer :=
  { w with elements := (w.elements.reverse.modify depth change).reverse }

def enter (w : Writer) (depth : Nat) (phase : Phase) : Writer :=
  w.changeAt depth ({ · with phase })

/-- The element at a depth with another one open inside of it. -/
def suspend (w : Writer) (depth : Nat) : Writer := w.changeAt depth ({ · with active := false })

/-- The text that ends the start tag of the element at a depth, if it is still open. -/
def endOfTag (w : Writer) (depth : Nat) (mark : String) : List Char :=
  if (w.elementAt? depth).any (·.phase = .attributes) then mark.toList else []

/-- The start of an element inside of those that are open. -/
def start (w : Writer) (name : List Char) : Writer :=
  let w' := w.emit (w.indentation w.elements.length ++ '<' :: name)
  { w' with elements := ⟨String.ofList name, .attributes, true, true⟩ :: w'.elements }

def refuse {α : Type} (fault : StreamFault) : Writing α := throw { cause := .stream fault }

/-- Opens the root element. A second root is refused, also after one that was refused. -/
def addRoot (name : String) : Writing Unit := do
  let w ← get
  if w.rooted then refuse .secondRoot
  set { w with rooted := true }
  let cs := Text.untilNul name
  if cs.isEmpty then refuse .emptyElementName
  modify (·.start cs)

/-- Opens a child of the element at a depth. The start tag of the parent is ended before the name
is looked at. -/
def addChild (depth : Nat) (name : String) : Writing Unit := do
  let w ← get
  if (w.elementAt? depth).any (·.phase = .text) then refuse .lateElement
  if !w.isActive depth then refuse .inactive
  set ((w.emit (w.endOfTag depth ">\n")).enter depth .elements)
  let cs := Text.untilNul name
  if cs.isEmpty then refuse .emptyElementName
  modify fun w => (w.suspend depth).start cs

def addAttribute (depth : Nat) (name : String) (value : Value) : Writing Unit := do
  let w ← get
  if !w.isActive depth then refuse .inactive
  if !(w.elementAt? depth).any (·.phase = .attributes) then refuse .lateAttribute
  let cs := Text.untilNul name
  if cs.isEmpty then refuse .emptyAttributeName
  set (w.emit (' ' :: cs ++ "=\"".toList ++ escape value.chars ++ ['"']))

def addText (depth : Nat) (value : Value) : Writing Unit := do
  let w ← get
  if (w.elementAt? depth).any (·.phase = .elements) then refuse .lateText
  if !w.isActive depth then refuse .inactive
  set ((w.emit (w.endOfTag depth ">" ++ escape value.chars)).enter depth .text)

/-- Puts the element at a depth in another place. The element inside of it, if there is one, does
not get to know the new place. -/
def move (w : Writer) (depth : Nat) : Writer :=
  w.changeAt (depth + 1) ({ · with handsBack := false })

def close (w : Writer) : Writer :=
  match w.elements with
  | [] => w
  | e :: outer =>
    let endTag := "</".toList ++ e.name.toList ++ ">\n".toList
    let w' := w.emit <| match e.phase with
      | .attributes => "/>\n".toList
      | .elements => w.indentation outer.length ++ endTag
      | .text => endTag
    { w' with elements := e.handBack outer }

def closeAll (w : Writer) : Writer := w.elements.foldl (fun w' _ => w'.close) w

/-- Ends the document. Text that the sink has refused is found out here. -/
def finish (w : Writer) : Except Failure Unit :=
  match w.sink with
  | .accepting => .ok ()
  | .refusing => .error { cause := .file .unwritten }

end Writer

end SeismicTree

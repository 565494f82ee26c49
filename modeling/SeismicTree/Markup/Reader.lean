import SeismicTree.Markup.Element
import SeismicTree.Text.Tokens

/-!
# Reading documents

A reader takes a document one character at a time, so reading a text in two parts is reading it as a
whole. It knows elements with attributes, texts, the five named references and, without looking into
them, instructions, comments and literal sections; documents with other references or with a
document type are refused. Blanks are kept as they are, in attributes too.
-/

namespace SeismicTree

namespace Markup

inductive Malformed where
  | character (c : Char)
  | reference (name : List Char)
  | endTag (name : List Char)
  | outside
  | unfinished
  deriving DecidableEq, Repr

def Malformed.message : Malformed → String
  | .character c => "unexpected character '" ++ c.toString ++ "'"
  | .reference name => "unknown reference '" ++ String.ofList name ++ "'"
  | .endTag name => "unexpected end of element '" ++ String.ofList name ++ "'"
  | .outside => "content outside of the root element"
  | .unfinished => "premature end of the document"

/-- A start tag in reading: the name and the attributes so far, the last one first. -/
structure StartTag where
  name : List Char
  attributes : List (String × String)
  deriving DecidableEq, Repr

/-- Where in a document the next character stands. Characters that have been collected are held
with the last one first. -/
inductive Spot where
  | text (run : List Char)
  | textReference (run name : List Char)
  | tag
  | startName (name : List Char)
  | startTag (tag : StartTag)
  | attributeName (tag : StartTag) (name : List Char)
  | equals (tag : StartTag) (name : List Char)
  | quote (tag : StartTag) (name : List Char)
  | value (tag : StartTag) (name : List Char) (mark : Char) (run : List Char)
  | valueReference (tag : StartTag) (name : List Char) (mark : Char) (run reference : List Char)
  | emptyTag (tag : StartTag)
  | endName (name : List Char)
  | endTag (name : List Char)
  | declaration (seen : List Char)
  | skipped (terminator recent : List Char)
  deriving DecidableEq, Repr

/-- An element whose end has not been read. The last child comes first. -/
structure PendingElement where
  name : String
  line : Nat
  attributes : List (String × String)
  children : List Node

def isNameChar (c : Char) : Bool :=
  !(Text.isBlank c || "<>&/='\"!?".toList.contains c)

/-- The character that a reference stands for. -/
def referenced? (name : List Char) : Option Char :=
  ([("amp", '&'), ("lt", '<'), ("gt", '>'), ("quot", '"'), ("apos", '\'')].find?
    (·.1.toList == name)).map (·.2)

end Markup

open Markup

/-- What has been read of a document. Lines count from one. The innermost element comes first. -/
structure Reader where
  line : Nat
  spot : Spot
  elements : List PendingElement
  root : Option Node

namespace Reader

def start : Reader := ⟨1, .text [], [], none⟩

def refuse {α : Type} (problem : Malformed) : Except Malformed α := .error problem

def moved (r : Reader) (spot : Spot) : Reader := { r with spot }

/-- The reader with one more node in the innermost element; a node that stands in no element has to
be the root. -/
def addNode (r : Reader) (n : Node) : Except Malformed Reader :=
  match r.elements, n with
  | e :: outer, n => .ok { r with elements := { e with children := n :: e.children } :: outer }
  | [], .other => .ok r
  | [], .text content => if (Text.trim content).isEmpty then .ok r else refuse .outside
  | [], .element .. => if r.root.isNone then .ok { r with root := some n } else refuse .outside

/-- The reader with the text since the last tag added, if there is any. -/
def addText (r : Reader) (run : List Char) : Except Malformed Reader :=
  if run.isEmpty then .ok r else r.addNode (.text (String.ofList run.reverse))

def begin (r : Reader) (tag : StartTag) : Reader :=
  let e : PendingElement := ⟨String.ofList tag.name.reverse, r.line, tag.attributes.reverse, []⟩
  { r with spot := .text [], elements := e :: r.elements }

def finishElement (r : Reader) : Except Malformed Reader :=
  match r.elements with
  | [] => refuse .outside
  | e :: outer =>
    { r with spot := .text [], elements := outer }.addNode
      (.element e.name e.line e.attributes e.children.reverse)

/-- The reader behind an end tag, which has to name the innermost element. -/
def finishNamed (r : Reader) (name : List Char) : Except Malformed Reader :=
  if r.elements.head?.any (·.name = String.ofList name.reverse) then r.finishElement
  else refuse (.endTag name.reverse)

/-- The reader behind a character inside of a start tag, between attributes. No blank is asked for
behind a value. -/
def inStartTag (r : Reader) (tag : StartTag) (c : Char) : Except Malformed Reader :=
  if Text.isBlank c then .ok (r.moved (.startTag tag))
  else if c = '/' then .ok (r.moved (.emptyTag tag))
  else if c = '>' then .ok (r.begin tag)
  else if isNameChar c then .ok (r.moved (.attributeName tag [c]))
  else refuse (.character c)

/-- The reader behind a character where a reference may end. -/
def inReference (r : Reader) (name : List Char) (c : Char) (more : List Char → Spot)
    (resolved : Char → Spot) : Except Malformed Reader :=
  if c = ';' then
    match referenced? name.reverse with
    | some character => .ok (r.moved (resolved character))
    | none => refuse (.reference name.reverse)
  else if isNameChar c then .ok (r.moved (more (c :: name)))
  else refuse (.character c)

def step (r : Reader) (c : Char) : Except Malformed Reader :=
  let r := if c = '\n' then { r with line := r.line + 1 } else r
  match r.spot with
  | .text run =>
    if c = '<' then (·.moved .tag) <$> r.addText run
    else if c = '&' then .ok (r.moved (.textReference run []))
    else .ok (r.moved (.text (c :: run)))
  | .textReference run name =>
    r.inReference name c (.textReference run ·) fun character => .text (character :: run)
  | .tag =>
    if c = '/' then .ok (r.moved (.endName []))
    else if c = '?' then .ok (r.moved (.skipped "?>".toList []))
    else if c = '!' then .ok (r.moved (.declaration []))
    else if isNameChar c then .ok (r.moved (.startName [c]))
    else refuse (.character c)
  | .startName name =>
    if isNameChar c then .ok (r.moved (.startName (c :: name))) else r.inStartTag ⟨name, []⟩ c
  | .startTag tag => r.inStartTag tag c
  | .attributeName tag name =>
    if isNameChar c then .ok (r.moved (.attributeName tag (c :: name)))
    else if c = '=' then .ok (r.moved (.quote tag name))
    else if Text.isBlank c then .ok (r.moved (.equals tag name))
    else refuse (.character c)
  | .equals tag name =>
    if c = '=' then .ok (r.moved (.quote tag name))
    else if Text.isBlank c then .ok r
    else refuse (.character c)
  | .quote tag name =>
    if c = '"' ∨ c = '\'' then .ok (r.moved (.value tag name c []))
    else if Text.isBlank c then .ok r
    else refuse (.character c)
  | .value tag name mark run =>
    if c = mark then
      let item := (String.ofList name.reverse, String.ofList run.reverse)
      .ok (r.moved (.startTag { tag with attributes := item :: tag.attributes }))
    else if c = '&' then .ok (r.moved (.valueReference tag name mark run []))
    else if c = '<' then refuse (.character c)
    else .ok (r.moved (.value tag name mark (c :: run)))
  | .valueReference tag name mark run reference =>
    r.inReference reference c (.valueReference tag name mark run ·)
      fun character => .value tag name mark (character :: run)
  | .emptyTag tag => if c = '>' then (r.begin tag).finishElement else refuse (.character c)
  | .endName name =>
    if isNameChar c then .ok (r.moved (.endName (c :: name)))
    else if c = '>' then r.finishNamed name
    else if Text.isBlank c then .ok (r.moved (.endTag name))
    else refuse (.character c)
  | .endTag name =>
    if c = '>' then r.finishNamed name
    else if Text.isBlank c then .ok r
    else refuse (.character c)
  | .declaration seen =>
    let seen := seen ++ [c]
    if seen = "--".toList then .ok (r.moved (.skipped "-->".toList []))
    else if seen = "[CDATA[".toList then .ok (r.moved (.skipped "]]>".toList []))
    else if seen.isPrefixOf "--".toList || seen.isPrefixOf "[CDATA[".toList then
      .ok (r.moved (.declaration seen))
    else refuse (.character c)
  | .skipped terminator recent =>
    let recent := (c :: recent).take terminator.length
    if recent.reverse = terminator then (r.moved (.text [])).addNode .other
    else .ok (r.moved (.skipped terminator recent))

def finish (r : Reader) : Except Malformed Node := do
  match r.spot, r.elements with
  | .text run, [] =>
    match (← r.addText run).root with
    | some root => return root
    | none => refuse .unfinished
  | _, _ => refuse .unfinished

/-- The reader behind a text, or the line and the reason where it stopped. -/
def readChars (r : Reader) : List Char → Except (Nat × Malformed) Reader
  | [] => .ok r
  | c :: cs =>
    match r.step c with
    | .ok r => r.readChars cs
    | .error problem => .error (r.line, problem)

/-- The root of a document, or the line and the reason why the text is none. -/
def parse (text : String) : Except (Nat × Malformed) Node := do
  let r ← start.readChars text.toList
  r.finish.mapError (r.line, ·)

theorem readChars_append (r : Reader) (cs ds : List Char) :
    r.readChars (cs ++ ds) = r.readChars cs >>= fun r => r.readChars ds := by
  induction cs generalizing r with
  | nil => rfl
  | cons c cs ih =>
    simp only [List.cons_append, readChars]
    cases r.step c with
    | error problem => rfl
    | ok r => exact ih r

end Reader

end SeismicTree

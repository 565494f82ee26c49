import SeismicTree.Markup.Writer

/-!
# Content to be written

An element with its attributes in order and either texts or children. Writing it is a sequence of
calls on a writer, and none of them is chosen by what has been written so far.
-/

namespace SeismicTree.Markup

inductive Content where
  | withText (name : String) (attributes : List (String × Value)) (texts : List Value)
  | withChildren (name : String) (attributes : List (String × Value)) (children : List Content)

namespace Content

/-- Opens an element inside of the innermost one, or the root if there is none. -/
def openElement (name : String) (attributes : List (String × Value)) : Writing Unit := do
  match (← get).elements.length with
  | 0 => Writer.addRoot name
  | depth + 1 => Writer.addChild depth name
  let depth := (← get).elements.length - 1
  attributes.forM fun (key, value) => Writer.addAttribute depth key value

mutual

def write : Content → Writing Unit
  | .withText name attributes texts => do
    openElement name attributes
    let depth := (← get).elements.length - 1
    texts.forM (Writer.addText depth)
    modify Writer.close
  | .withChildren name attributes children => do
    openElement name attributes
    writeAll children
    modify Writer.close

def writeAll : List Content → Writing Unit
  | [] => pure ()
  | c :: cs => do
    write c
    writeAll cs

end

def document (indented : Bool) (sink : Sink) (content : Content) : Except Failure String :=
  match content.write.run (Writer.begin indented sink) with
  | (.error f, _) => .error f
  | (.ok _, w) => w.finish.map fun _ => String.ofList w.written

end Content

end SeismicTree.Markup

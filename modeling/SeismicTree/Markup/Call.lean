import SeismicTree.Markup.Writer

/-!
# Calls on a writer

The calls as values, so that sequences of them can be spoken of. Any call may be refused, and the
sequence goes on with the writer that it leaves behind.
-/

namespace SeismicTree

namespace Markup

/-- A call on a writer. Elements are named by their depth; the root has depth zero. It is the
innermost element that is closed, and that is moved if none is named. -/
inductive Call where
  | addRoot (name : String)
  | addChild (depth : Nat) (name : String)
  | addAttribute (depth : Nat) (name : String) (value : Value)
  | addText (depth : Nat) (value : Value)
  | close
  | move
  | moveAt (depth : Nat)

end Markup

open Markup

namespace Writer

def perform : Call → Writing Unit
  | .addRoot name => addRoot name
  | .addChild depth name => addChild depth name
  | .addAttribute depth name value => addAttribute depth name value
  | .addText depth value => addText depth value
  | .close => modify close
  | .move => modify fun w => w.move (w.elements.length - 1)
  | .moveAt depth => modify (·.move depth)

/-- The outcome of a call, and the writer that it leaves behind. -/
def after (w : Writer) (call : Call) : Except Failure Unit × Writer := (perform call).run w

def afterAll (w : Writer) : List Call → List (Except Failure Unit × Writer)
  | [] => []
  | call :: rest =>
    let step := w.after call
    step :: afterAll step.2 rest

end Writer

end SeismicTree

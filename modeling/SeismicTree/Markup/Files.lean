import SeismicTree.Log
import SeismicTree.Markup.Element

/-!
# Files

How text becomes a document is left to a document layer outside of this library. For every path
the layer has a root element or a trouble, and sometimes messages about the file. A path without
an entry is a file that does not exist.
-/

namespace SeismicTree

/-- Why the document layer could not read a file: the file itself is not readable, or it holds no
well-formed document. -/
inductive Trouble where
  | unreadable (message : String)
  | malformed (message : String) (file : Option String) (line : Option Int)

/-- What the document layer knows of a file. A document that is not named does not know the path
it was read from. -/
structure Document where
  root : Option Node
  named : Bool
  trouble : Option Trouble
  messages : List String

/-- The folder in which relative paths start, and the files in reach, by path. -/
structure Files where
  folder : String
  entries : List (String × Document)

namespace Files

def find? (files : Files) (path : String) : Option Document :=
  (files.entries.find? (·.1 == path)).map (·.2)

def contains (files : Files) (path : String) : Bool := (files.find? path).isSome

def unopened (path : String) (fault : FileFault) : Failure :=
  { cause := .file fault, context := { file := some path, mode := some "r" } }

/-- The failure for a trouble with a file. Line zero is a line that is not known. -/
def troubleFailure (path : String) : Trouble → Failure
  | .unreadable message => unopened path (.unreadable message)
  | .malformed message file line =>
    { cause := .unparsed message
      context := { file := file, line := line.filter (· ≠ 0) } }

/-- The root element of a document. A trouble counts even if there is a root. -/
def rootOf (path : String) (document : Document) : Except Failure Element :=
  match document.trouble with
  | some trouble => .error (troubleFailure path trouble)
  | none =>
    match document.root.bind (Node.element? (if document.named then path else "")) with
    | some root => .ok root
    | none => .error { cause := .emptyDocument, context := { file := some path } }

/-- Opens a file and takes its root element. The messages about the file are logged first. -/
def openRoot (files : Files) (path : String) : Logged Element := do
  match files.find? path with
  | some document =>
    document.messages.forM fun message => Logged.note .warning message
    rootOf path document
  | none => Logged.fail (unopened path (.absent path))

def openExisting (files : Files) (missing : FileFault) (path : String) : Logged Element := do
  if files.contains path then files.openRoot path
  else Logged.fail { cause := .file missing, context := { file := some path } }

end Files

end SeismicTree

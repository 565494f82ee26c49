import SeismicTree.CommandLine.Arguments
import SeismicTree.Markup.Reader

/-!
# The program

Reads the files that a run asks for, and shows how it ends. Nothing is decided here.
-/

namespace SeismicTree.Main

open CommandLine

def document (path text : String) : Document :=
  match Reader.parse text with
  | .ok root => ⟨some root, true, none, []⟩
  | .error (line, problem) =>
    ⟨none, true, some (.malformed problem.message (some path) (some line)), []⟩

def unreadable (message : String) : Document := ⟨none, true, some (.unreadable message), []⟩

def load? (path : String) : IO (Option (String × Document)) := do
  match ← (IO.FS.readBinFile path).toBaseIO with
  | .ok bytes =>
    match String.fromUTF8? bytes with
    | some text => return some (path, document path text)
    | none => return some (path, unreadable ("'" ++ path ++ "' is not in UTF-8\n"))
  | .error (.noFileOrDirectory ..) => return none
  | .error e => return some (path, unreadable (toString e ++ "\n"))

def load (folder : String) (paths : List String) : IO Files :=
  return ⟨folder, ← paths.filterMapM load?⟩

def surroundings (canWrite : Bool) : Surroundings where
  optionTable := optionTable
  parts := []
  diagnosis := "no further diagnosis"
  timing := ⟨none, "an unknown time"⟩
  canWrite := fun _ => canWrite

def conclude (o : Outcome) : IO UInt32 := do
  (← IO.getStdout).putStr o.stdout
  (← IO.getStderr).putStr o.stderr
  return o.status.toUInt32

/-- Writes the report of a run to its file. A run whose file cannot be written ends as if that had
been known before. -/
def perform (files : Files) (o : Options) : IO UInt32 := do
  let outcome := run (surroundings true) files o
  match outcome.file with
  | none => conclude outcome
  | some (path, text) =>
    match ← (IO.FS.writeFile path text).toBaseIO with
    | .ok _ => conclude outcome
    | .error _ => conclude (run (surroundings false) files o)

def start (args : List String) : IO UInt32 := do
  match Options.ofArguments args with
  | .error problem => conclude (unparsed (surroundings true) problem)
  | .ok o =>
    let folder := toString (← IO.currentDir)
    let configuration ← load folder o.configFile.toList
    let p := places o ((configured configuration o).result.toOption.join)
    perform ⟨folder, configuration.entries ++ (← load folder [p.tree, p.model]).entries⟩ o

end SeismicTree.Main

def main (args : List String) : IO UInt32 := SeismicTree.Main.start args

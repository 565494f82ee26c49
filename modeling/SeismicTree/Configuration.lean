import SeismicTree.Markup.Files
import SeismicTree.Settings

/-!
# Configuration

A configuration file names the logic tree, and may name a source model, a path for the report and
settings. Its paths are taken relative to the folder of the configuration file, or to the working
folder where that file has none; they are joined, not normalised.
-/

namespace SeismicTree

namespace Folder

def resolve (folder path : String) : String :=
  if path = "" then folder
  else if path.startsWith "/" then path
  else if folder.endsWith "/" then folder ++ path
  else folder ++ "/" ++ path

/-- The folder that an absolute path lies in. The root lies in none. -/
def holding (path : String) : Option String :=
  if path = "/" then none
  else
    let folder := (path.toList.reverse.dropWhile (· ≠ '/')).tail.reverse
    some (if folder.isEmpty then "/" else String.ofList folder)

end Folder

/-- What a configuration file asks for. A source model or a report path may be missing. -/
structure Configuration where
  logicTree : String
  sourceModel : Option String
  report : Option String
  settings : Settings

namespace Configuration

/-- Takes a setting from an attribute, if the attribute is there. -/
def take (group : Element) (name : String) (set : Settings → Int32 → Except Failure Settings)
    (s : Settings) : Except Failure Settings := do
  match ← group.attributeAs Int32 name with
  | some n =>
    match set s n with
    | .ok s' => return s'
    | .error f => throw (f.within fun c => { c with line := some group.line })
  | none => return s

/-- The settings after one group of options; groups of other names are passed over. -/
def takeGroup (s : Settings) (group : Element) : Except Failure Settings :=
  if group.name = "sampling" then
    take group "number" Settings.withSamples s >>= take group "seed" Settings.withSeed
  else if group.name = "limits" then take group "paths" Settings.withLimit s
  else .ok s

/-- The settings of the configuration, with the defaults for those it does not name. -/
def settingsOf (root : Element) : Except Failure Settings :=
  match root.child? "options" with
  | some options => options.elements.foldlM takeGroup .standard
  | none => .ok .standard

def ofElement (workingFolder path : String) (root : Element) : Except Failure Configuration := do
  if root.name ≠ "tremor" then
    throw { cause := .markup .configurationRoot
            context := { elementName := some root.name, file := some path } }
  let folder := (Folder.holding (Folder.resolve workingFolder path)).getD workingFolder
  let tree := ((root.child? "logic-tree").map Element.text).getD ""
  if tree = "" then
    throw { cause := .markup .noLogicTree
            context := { elementName := some "logic-tree", file := some path } }
  let place (name : String) : Option String :=
    (root.child? name).map fun e => Folder.resolve folder e.text
  let settings ← withContext (fun c => { c with file := some path }) (settingsOf root)
  return { logicTree := Folder.resolve folder tree
           sourceModel := place "source-model"
           report := place "output-path"
           settings }

def read (files : Files) (path : String) : Logged Configuration := do
  let root ← files.openExisting .missingConfiguration path
  ofElement files.folder path root

end Configuration

end SeismicTree

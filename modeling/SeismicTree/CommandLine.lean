import SeismicTree.Configuration
import SeismicTree.Report
import SeismicTree.Source.Model
import SeismicTree.Tree.Reading

/-!
# The command line

A run starts from options that have been told apart already, and ends with a status, two texts and
perhaps a file to be written. Everything that is shown on the error stream is there in the order in
which it arose, log entries included. An option given on the command line wins over the
configuration file.
-/

namespace SeismicTree

namespace CommandLine

structure Options where
  help : Bool := false
  version : Bool := false
  validate : Bool := false
  noIndent : Bool := false
  configFile : Option String := none
  sourceModel : Option String := none
  logicTree : Option String := none
  outputPath : Option String := none
  samples : Option Int32 := none
  seed : Option Int32 := none
  limit : Option Int32 := none
  verbosity : Option Int32 := none
  deriving DecidableEq

/-- What comes from outside of this library: the table of options, the versions of the parts that
the program is built on, what developers are shown of a failure, times, and which paths can be
written to. -/
structure Surroundings where
  optionTable : String
  parts : List (String × String)
  diagnosis : String
  timing : Timing
  canWrite : String → Bool

/-- The end of a run. `file` is a path and what is to be written to it. -/
structure Outcome where
  status : Nat
  stdout : String
  stderr : String
  file : Option (String × String)
  deriving DecidableEq, Repr

/-- What a successful run writes: to the standard output, and perhaps to a file. -/
structure Output where
  text : String
  file : Option (String × String)
  deriving DecidableEq, Repr

def usage : String := "Usage:    tremor [options] logic-tree-file"

def helpText (s : Surroundings) : String := usage ++ "\n\n" ++ s.optionTable ++ "\n"

def versionText (s : Surroundings) : String :=
  let partLine (p : String × String) : String :=
    "   " ++ p.1 ++ String.ofList (List.replicate (12 - p.1.length) ' ') ++ p.2 ++ "\n"
  "tremor " ++ versionNumber ++ " (" ++ buildType ++ ")\n\nDependencies:\n"
    ++ String.join (s.parts.map partLine)

def unparsed (s : Surroundings) (problem : String) : Outcome :=
  ⟨1, "", "Option error: " ++ problem ++ "\n\n" ++ helpText s, none⟩

/-- One item of a failure on a line of its own, if it is there. -/
def infoLine (label : String) (item : Option String) : String :=
  match item with
  | some text => label ++ ": " ++ text ++ "\n"
  | none => ""

def contextLines (f : Failure) : String :=
  let c := f.context
  match f.cause with
  | .file fault =>
    infoLine "File" c.file ++ infoLine "Open mode" c.mode
      ++ infoLine "Error code" (fault.system?.map fun e => toString e.1)
      ++ infoLine "Error string" (fault.system?.map (·.2))
  | _ =>
    infoLine "Value" c.value ++ infoLine "File" c.file
      ++ infoLine "Line" (c.line.map toString) ++ infoLine "Branch set" c.branchSet
      ++ infoLine "Branch" c.branch ++ infoLine "Uncertainty" c.uncertainty
      ++ infoLine "Filter" c.filter ++ infoLine "Source" c.source
      ++ infoLine "Operation" c.operation ++ infoLine "Realization" (c.realization.map toString)
      ++ infoLine "XML element" c.elementName ++ infoLine "XML attribute" c.attributeName

/-- What is shown of a failure. A misuse of the library is only logged. -/
def failureText (s : Surroundings) (level : Log.Level) (f : Failure) : String :=
  let log (l : Log.Level) (text : String) := Log.render level s.timing.elapsed [⟨l, text, false⟩]
  if f.kind = .logic then log .error ("Logic Error:\n" ++ s.diagnosis)
  else
    log .debug1 s.diagnosis ++ f.kind.title ++ "\n\n" ++ contextLines f ++ "\n" ++ f.message ++ "\n"

def configured (files : Files) (o : Options) : Logged (Option Configuration) :=
  match o.configFile with
  | some path => some <$> Configuration.read files path
  | none => pure none

def overridden (o : Options) (s : Settings) : Except Failure Settings := do
  let s ← (o.samples.map s.withSamples).getD (.ok s)
  let s ← (o.seed.map s.withSeed).getD (.ok s)
  (o.limit.map s.withLimit).getD (.ok s)

/-- The paths of a run. An empty path is no source model and no file for the report. -/
structure Places where
  tree : String
  model : String
  report : String
  deriving DecidableEq, Repr

/-- The paths of the command line, or else of the configuration. -/
def places (o : Options) (c : Option Configuration) : Places where
  tree := (o.logicTree.or (c.map (·.logicTree))).getD ""
  model := (o.sourceModel.or (c.bind (·.sourceModel))).getD ""
  report := (o.outputPath.or (c.bind (·.report))).getD ""

def readGroups (files : Files) (path : String) : Logged (List SourceGroup) :=
  if path = "" then pure [] else SourceModel.read files path

/-- The report on the standard output, or in a file if there is a path for it. -/
def report (s : Surroundings) (o : Options) (path : String) (a : Analysis) (f : Findings) :
    Logged Output := do
  if path ≠ "" && !s.canWrite path then Logged.fail (Report.unopened path)
  let text ← Report.write a f s.timing (!o.noIndent) .accepting
  return if path = "" then ⟨text, none⟩ else ⟨"", some (path, text)⟩

def body (s : Surroundings) (files : Files) (o : Options) : Logged Output := do
  let c ← configured files o
  let settings ← overridden o ((c.map (·.settings)).getD .standard)
  let p := places o c
  let tree ← LogicTree.read files p.tree
  let groups ← readGroups files p.model
  if o.validate then return ⟨"", none⟩
  let a : Analysis := { tree, groups, settings }
  let r := a.run
  let findings ← (⟨r.entries, (r.failure.map .error).getD (.ok r.findings)⟩ : Logged Findings)
  report s o p.report a findings

def refused (s : Surroundings) (problem : String) : Outcome :=
  ⟨1, "", problem ++ "\n\n" ++ helpText s, none⟩

/-- The outcome after the options have been found acceptable. `greeting` is what has been written
to the standard output before. -/
def proceed (s : Surroundings) (o : Options) (greeting : String) (work : Logged Output) : Outcome :=
  match (o.verbosity.map Log.Level.ofVerbosity).getD (.ok .error) with
  | .error f => ⟨1, greeting, failureText s .error f, none⟩
  | .ok level =>
    let log := Log.render level s.timing.elapsed work.entries
    match work.result with
    | .ok out => ⟨0, greeting ++ out.text, log, out.file⟩
    | .error f => ⟨1, greeting, log ++ failureText s level f, none⟩

/-- A run from its options. Questions about usage and version come first, also if the verbosity is
out of range. -/
def run (s : Surroundings) (files : Files) (o : Options) : Outcome :=
  if o.help then proceed s o (helpText s) (pure ⟨"", none⟩)
  else if o.version then proceed s o (versionText s) (pure ⟨"", none⟩)
  else if (o.verbosity.map fun v => (Log.Level.ofVerbosity v).toOption.isNone).getD false then
    refused s "Log verbosity must be between 0 and 7."
  else if o.logicTree.isNone && o.configFile.isNone then
    refused s "No logic tree or configuration file is given."
  else proceed s o "" (body s files o)

end CommandLine

end SeismicTree

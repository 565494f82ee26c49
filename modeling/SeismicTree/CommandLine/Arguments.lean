import SeismicTree.CommandLine

/-!
# Arguments

How options are told apart on a command line. An option stands for itself or takes a value, which
follows as the next argument or behind an equals sign. One argument that is no option is the logic
tree. No argument may be given twice.
-/

namespace SeismicTree.CommandLine

inductive Effect where
  | flag (set : Options → Options)
  | path (set : Options → String → Options)
  | number (set : Options → Int32 → Options)

/-- An option with its long name, the letter that may stand for it, and what is told about it. -/
structure Argument where
  name : String
  letter : Option Char
  effect : Effect
  purpose : String

def arguments : List Argument :=
  [⟨"help", none, .flag fun o => { o with help := true }, "Display this help message"⟩,
    ⟨"version", none, .flag fun o => { o with version := true }, "Display version information"⟩,
    ⟨"config-file", none, .path fun o s => { o with configFile := some s },
      "XML file with configurations"⟩,
    ⟨"source-model", none, .path fun o s => { o with sourceModel := some s },
      "XML file with the source model to transform"⟩,
    ⟨"validate", none, .flag fun o => { o with validate := true },
      "Validate input files without processing"⟩,
    ⟨"num-samples", none, .number fun o n => { o with samples := some n },
      "Number of realizations to sample (0 to enumerate all paths)"⟩,
    ⟨"seed", none, .number fun o n => { o with seed := some n },
      "Seed for the pseudo-random number generator"⟩,
    ⟨"limit-paths", none, .number fun o n => { o with limit := some n },
      "Upper limit for the reported paths of the enumeration"⟩,
    ⟨"output-path", some 'o', .path fun o s => { o with outputPath := some s },
      "Output path for reports"⟩,
    ⟨"no-indent", none, .flag fun o => { o with noIndent := true },
      "Omit indentation whitespace in output XML"⟩,
    ⟨"verbosity", none, .number fun o n => { o with verbosity := some n }, "Set log verbosity"⟩]

def positional : Argument :=
  ⟨"logic-tree", none, .path fun o s => { o with logicTree := some s },
    "XML file with the logic tree"⟩

namespace Argument

def usage (a : Argument) : String :=
  let name := match a.letter with
    | some c => "-" ++ c.toString ++ " [ --" ++ a.name ++ " ]"
    | none => "--" ++ a.name
  match a.effect with
  | .flag _ => name
  | .path _ => name ++ " path"
  | .number _ => name ++ " int"

/-- The options after an option that stands for itself. -/
def alone? (a : Argument) (o : Options) : Option Options :=
  match a.effect with
  | .flag set => some (set o)
  | _ => none

def withValue (a : Argument) (o : Options) (value : String) : Except String Options :=
  match a.effect with
  | .flag _ => .error ("option '--" ++ a.name ++ "' does not take any arguments")
  | .path set => .ok (set o value)
  | .number set =>
    match Literal.integer? value with
    | some n => .ok (set o n)
    | none => .error ("the argument ('" ++ value ++ "') for option '--" ++ a.name ++ "' is invalid")

end Argument

/-- An argument as it is written: an option, perhaps with a value, or something else. -/
inductive Word where
  | option (a : Argument) (value : Option String)
  | plain (text : String)
  | unknown (text : String)

def word (text : String) : Word :=
  let named (find : Argument → Bool) (value : Option String) : Word :=
    match arguments.find? find with
    | some a => .option a value
    | none => .unknown text
  match text.toList with
  | '-' :: '-' :: cs =>
    let name := String.ofList (cs.takeWhile (· ≠ '='))
    named (·.name == name) <|
      match cs.dropWhile (· ≠ '=') with
      | _ :: value => some (String.ofList value)
      | [] => none
  | '-' :: c :: cs =>
    named (·.letter == some c) (if cs.isEmpty then none else some (String.ofList cs))
  | _ => .plain text

def optionTable : String :=
  let width := (arguments.map (·.usage.length)).foldl max 0
  "Options:\n" ++ String.join (arguments.map fun a =>
    "  " ++ a.usage ++ String.ofList (List.replicate (width + 1 - a.usage.length) ' ') ++ a.purpose
      ++ "\n")

def Options.take (o : Options) (used : List String) : List String → Except String Options
  | [] => .ok o
  | text :: rest =>
    let once (a : Argument) : Except String (List String) :=
      if used.contains a.name then
        .error ("option '--" ++ a.name ++ "' cannot be specified more than once")
      else .ok (a.name :: used)
    match word text with
    | .unknown text => .error ("unrecognised option '" ++ text ++ "'")
    | .plain text =>
      if used.contains positional.name then
        .error "too many positional options have been specified on the command line"
      else do (← positional.withValue o text).take (positional.name :: used) rest
    | .option a (some value) => do (← a.withValue o value).take (← once a) rest
    | .option a none =>
      match a.alone? o, rest with
      | some o, rest => do o.take (← once a) rest
      | none, value :: rest => do (← a.withValue o value).take (← once a) rest
      | none, [] =>
        .error ("the required argument for option '--" ++ a.name ++ "' is missing")

def Options.ofArguments (args : List String) : Except String Options := Options.take {} [] args

end SeismicTree.CommandLine

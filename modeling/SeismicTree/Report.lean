import SeismicTree.Analysis
import SeismicTree.Markup.Content

/-!
# Reports

A report is a document about an analysis: how it was made, and one element for each realization with
the transformed sources. The time of the report and the time taken are texts from outside, because
nothing in this library reads a clock.
-/

namespace SeismicTree

/-- The version of the program and how it was built. -/
def versionNumber : String := "0.3.0"
def buildType : String := "Release"

/-- The texts for the time of a report and for durations. A time may be unknown. -/
structure Timing where
  now : Option String
  elapsed : String

namespace Report

open Markup (Value Content Sink)

/-- An element with attributes alone. -/
def plain (name : String) (attributes : List (String × Value)) : Content :=
  .withChildren name attributes []

def software : Content :=
  plain "software" [("name", .text "tremor"), ("version", .text versionNumber)]

def method (s : Settings) : Content :=
  plain "calculation-method" <|
    if s.samples.val ≠ 0 then
      [("name", .text "sampling"), ("samples", .integer s.samples.val),
        ("seed", .integer s.seed.val)]
    else
      ("name", .text "enumeration") ::
        (if s.limit.val ≠ 0 then [("limit", .integer s.limit.val)] else [])

def tree (a : Analysis) (f : Findings) : Content :=
  plain "logic-tree" <|
    ("root", .text a.tree.id) ::
      (if a.samples then []
        else [("paths", .integer f.pathCount), ("weight", .number f.totalWeight)])

def performance (elapsed : String) : Content :=
  .withChildren "performance" [] [.withText "calculation-time" [] [.text elapsed]]

def information (a : Analysis) (f : Findings) (timing : Timing) : Content :=
  .withChildren "information" [] <|
    [software]
      ++ timing.now.toList.map (fun now => .withText "time" [] [.text now])
      ++ [method a.settings, tree a f, performance timing.elapsed]
      ++ (if f.warnings.isEmpty then [] else [.withText "warning" [] [.text f.warningText]])

def source (s : Source) : Content :=
  plain "source" [("id", .text s.id), ("kind", .text s.kind.name),
    ("scaling-rate", .number s.scalingRate)]

def group (g : SourceGroup) : Content :=
  .withChildren "source-group"
    ([("tectonic-region", .text g.region)]
      ++ (if g.name = "" then [] else [("name", .text g.name)])
      ++ [("changes", .integer g.changes), ("sources", .integer g.sources.length)])
    (g.sources.map source)

def pathText (ids : List String) : String := "~".intercalate ids

def realization (r : Realization) : Content :=
  .withChildren "realization"
    [("ordinal", .integer r.ordinal), ("weight", .number r.weight),
      ("path", .text (pathText r.ids))]
    (r.groups.map group)

/-- The report of an analysis with findings. Without realizations it has no results. -/
def content (a : Analysis) (f : Findings) (timing : Timing) : Content :=
  .withChildren "report" [] <|
    information a f timing ::
      (if f.realizations.isEmpty then []
        else [.withChildren "results" [] (f.realizations.map realization)])

def write (a : Analysis) (f : Findings) (timing : Timing) (indented : Bool) (sink : Sink) :
    Logged String :=
  let document := Logged.quiet ((content a f timing).document indented sink)
  if f.realizations.isEmpty then document
  else Logged.timed .debug1 "Reporting realizations" document

def unopened (path : String) : Failure :=
  { cause := .file .unopenedReport, context := { file := some path, mode := some "w" } }

end Report

end SeismicTree

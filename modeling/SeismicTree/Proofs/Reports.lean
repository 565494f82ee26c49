import Mathlib
import SeismicTree.Proofs.Filtering
import SeismicTree.Proofs.WrittenContent
import SeismicTree.Report

/-!
# Reports are read back

A report is written without a refused call, whatever has been found, and a reader who knows only
the names of its elements and attributes finds all results in it: the realizations in order, each
with its path and its groups, and the groups with their sources. How it was made is not read back,
nor are weights and rates, which are written with twelve digits.
-/

namespace SeismicTree

namespace Outline

def attribute? (o : Outline) (name : String) : Option String :=
  (o.attributes.find? (·.1 == name)).map (·.2)

def count? (o : Outline) (name : String) : Option Nat := (o.attribute? name).bind String.toNat?

/-- The child with a name, if there is one. Several of them are too many. -/
def only? (o : Outline) (name : String) : Option (Option Outline) :=
  match o.children.filter (·.name == name) with
  | [] => some none
  | [c] => some (some c)
  | _ => none

end Outline

namespace Report
open Markup

structure SourceEntry where
  id : String
  kind : SourceKind
  deriving DecidableEq

/-- What a report tells of a group: `count` is the number of its sources that the report gives. -/
structure GroupEntry where
  region : String
  name : String
  changes : Nat
  count : Nat
  sources : List SourceEntry
  deriving DecidableEq

structure RealizationEntry where
  ordinal : Nat
  path : String
  groups : List GroupEntry
  deriving DecidableEq

/-- What a report tells of the results: nothing if there are none, and the warning if there is
one. -/
structure Account where
  results : Option (List RealizationEntry)
  warning : Option String
  deriving DecidableEq

section Reading

def SourceEntry.read? (o : Outline) : Option SourceEntry := do
  guard (o.name = "source")
  return { id := ← o.attribute? "id", kind := ← (o.attribute? "kind").bind SourceKind.ofName? }

/-- The group that an element is about. A name that is not given is empty. -/
def GroupEntry.read? (o : Outline) : Option GroupEntry := do
  guard (o.name = "source-group")
  return {
    region := ← o.attribute? "tectonic-region"
    name := (o.attribute? "name").getD ""
    changes := ← o.count? "changes"
    count := ← o.count? "sources"
    sources := ← o.children.mapM SourceEntry.read? }

def RealizationEntry.read? (o : Outline) : Option RealizationEntry := do
  guard (o.name = "realization")
  return {
    ordinal := ← o.count? "ordinal"
    path := ← o.attribute? "path"
    groups := ← o.children.mapM GroupEntry.read? }

/-- The account that an element gives, if it is a report. -/
def Account.read? (o : Outline) : Option Account := do
  guard (o.name = "report")
  let some information ← o.only? "information" | none
  let warning ← information.only? "warning"
  match ← o.only? "results" with
  | none => return { results := none, warning := warning.map (·.text) }
  | some results =>
    return {
      results := some (← results.children.mapM RealizationEntry.read?)
      warning := warning.map (·.text) }

def Account.ofText? (text : String) : Option Account := do
  let body ← text.toList.dropPrefix? Writer.header
  let root ← (Reader.parse (String.ofList body)).toOption
  match root.outlines with
  | [o] => Account.read? o
  | _ => none

end Reading

section Findings

def SourceEntry.of (s : Source) : SourceEntry := ⟨s.id, s.kind⟩

def GroupEntry.of (g : SourceGroup) : GroupEntry where
  region := g.region
  name := g.name
  changes := g.changes
  count := g.sources.length
  sources := g.sources.map .of

def RealizationEntry.of (r : Realization) : RealizationEntry where
  ordinal := r.ordinal
  path := "~".intercalate r.ids
  groups := r.groups.map .of

/-- What there is to tell of findings. -/
def Account.of (f : Findings) : Account where
  results := if f.realizations = [] then none else some (f.realizations.map .of)
  warning := if f.warnings = [] then none else some f.warningText

end Findings

section Entries

/-- Each of a list of contents is read as what it tells. -/
theorem mapM_outlineAll {α β : Type} {write : α → Content} {read : Outline → Option β}
    {tell : α → β} (each : ∀ a, read (write a).outline = some (tell a)) (as : List α) :
    (Content.outlineAll (as.map write)).mapM read = some (as.map tell) := by
  induction as with
  | nil => rfl
  | cons a as ih =>
    rw [List.map_cons, Content.outlineAll, List.mapM_cons, each, ih]
    rfl

theorem shown_text (s : String) : (Value.text s).shown = s := rfl

theorem toNat?_shown (n : Nat) : (Value.shown (.integer n)).toNat? = some n := Nat.toNat?_repr n

theorem read?_source (s : Source) : SourceEntry.read? (source s).outline = some (.of s) := by
  simp [SourceEntry.read?, source, plain, Content.outline, Content.shownAttributes,
    Outline.attribute?, shown_text, SourceKind.ofName?_name, SourceEntry.of, guard]

theorem read?_group (g : SourceGroup) : GroupEntry.read? (group g).outline = some (.of g) := by
  have hsources := mapM_outlineAll read?_source g.sources
  by_cases hname : g.name = ""
  · simp [GroupEntry.read?, group, Content.outline, Content.shownAttributes, Outline.attribute?,
      Outline.count?, shown_text, toNat?_shown, GroupEntry.of, guard, hname, hsources]
  · simp [GroupEntry.read?, group, Content.outline, Content.shownAttributes, Outline.attribute?,
      Outline.count?, shown_text, toNat?_shown, GroupEntry.of, guard, hname, hsources]

theorem read?_realization (r : Realization) :
    RealizationEntry.read? (realization r).outline = some (.of r) := by
  have hgroups := mapM_outlineAll read?_group r.groups
  simp [RealizationEntry.read?, realization, Content.outline, Content.shownAttributes,
    Outline.attribute?, Outline.count?, shown_text, toNat?_shown, RealizationEntry.of, pathText,
    guard, hgroups]

/-- The warning stands among the information, which has no other element of its name. -/
theorem only?_warning (a : Analysis) (f : Findings) (timing : Timing) :
    ((information a f timing).outline.only? "warning").map (·.map (·.text)) =
      some (if f.warnings = [] then none else some f.warningText) := by
  cases hnow : timing.now <;> by_cases hwarnings : f.warnings = []
  all_goals
    simp [information, software, method, tree, performance, plain, Content.outline, Outline.only?,
      Content.outlineAll, hnow, hwarnings, shown_text, String.join]

theorem only?_information (a : Analysis) (f : Findings) (timing : Timing) :
    (content a f timing).outline.only? "information" =
      some (some (information a f timing).outline) := by
  have hname : (information a f timing).outline.name = "information" := rfl
  by_cases hnone : f.realizations = []
  all_goals simp [content, Content.outline, Content.outlineAll, Outline.only?, hname, hnone]

/-- There are results if there are realizations. -/
theorem only?_results (a : Analysis) (f : Findings) (timing : Timing) :
    (content a f timing).outline.only? "results" =
      some (if f.realizations = [] then none
        else some
          (Content.withChildren "results" [] (f.realizations.map realization)).outline) := by
  have hname : (information a f timing).outline.name = "information" := rfl
  by_cases hnone : f.realizations = []
  all_goals simp [content, Content.outline, Content.outlineAll, Outline.only?, hname, hnone]

/-- The content of a report is read as what there is to tell. -/
theorem read?_content (a : Analysis) (f : Findings) (timing : Timing) :
    Account.read? (content a f timing).outline = some (.of f) := by
  have hname : (content a f timing).outline.name = "report" := rfl
  have hresults := mapM_outlineAll read?_realization f.realizations
  obtain ⟨warning, hwarning, htext⟩ := Option.map_eq_some_iff.mp (only?_warning a f timing)
  rw [Account.read?, only?_information, only?_results, Account.of, ← htext]
  by_cases hnone : f.realizations = []
  · simp [guard, hname, hwarning, hnone]
  · simp [guard, hname, hwarning, hnone, Content.outline, hresults]

end Entries

section Plainness

def NulFree (s : String) : Prop := '\x00' ∉ s.toList

instance (s : String) : Decidable (NulFree s) := inferInstanceAs (Decidable (_ ∉ _))

theorem nulFree_intercalate {separator : String} {texts : List String}
    (hseparator : NulFree separator) (htexts : ∀ t ∈ texts, NulFree t) :
    NulFree (separator.intercalate texts) := by
  rw [NulFree, String.toList_intercalate]
  induction texts with
  | nil => exact List.not_mem_nil
  | cons t texts ih =>
    obtain ⟨ht, hrest⟩ := List.forall_mem_cons.mp htexts
    cases texts with
    | nil => simpa [NulFree] using ht
    | cons next texts =>
      rw [List.map_cons, List.map_cons, List.intercalate_cons_cons, List.mem_append,
        List.mem_append]
      exact fun h => h.elim (fun h => h.elim ht hseparator) (ih hrest)

structure Plain (a : Analysis) (f : Findings) (timing : Timing) : Prop where
  tree : NulFree a.tree.id
  now : ∀ text ∈ timing.now, NulFree text
  elapsed : NulFree timing.elapsed
  warnings : ∀ w ∈ f.warnings, NulFree w
  ids : ∀ r ∈ f.realizations, ∀ id ∈ r.ids, NulFree id
  groups : ∀ r ∈ f.realizations, ∀ g ∈ r.groups, NulFree g.region ∧ NulFree g.name
  sources : ∀ r ∈ f.realizations, ∀ g ∈ r.groups, ∀ s ∈ g.sources, NulFree s.id

open Content (PlainAttributes plainAttributes_nil)

theorem plain_source {s : Source} (h : NulFree s.id) : (source s).Plain := by
  have hkind : (Value.text s.kind.name).Plain := by cases s.kind <;> decide
  exact ⟨by decide, .cons (by decide) h (.cons (by decide) hkind (.cons (by decide) trivial
    plainAttributes_nil)), trivial⟩

theorem plain_group {g : SourceGroup} (labels : NulFree g.region ∧ NulFree g.name)
    (sources : ∀ s ∈ g.sources, NulFree s.id) : (group g).Plain := by
  have hcounts : PlainAttributes
      [("changes", .integer g.changes), ("sources", .integer g.sources.length)] :=
    .cons (by decide) trivial (.cons (by decide) trivial plainAttributes_nil)
  refine ⟨by decide, ?_, Content.plainAll_iff.mpr (List.forall_mem_map.mpr fun s hs => ?_)⟩
  · split
    · exact .cons (by decide) labels.1 hcounts
    · exact .cons (by decide) labels.1 (.cons (by decide) labels.2 hcounts)
  · exact plain_source (sources s hs)

theorem plain_realization {r : Realization} (ids : ∀ id ∈ r.ids, NulFree id)
    (groups : ∀ g ∈ r.groups, (group g).Plain) : (realization r).Plain := by
  have hpath : (Value.text (pathText r.ids)).Plain := nulFree_intercalate (by decide) ids
  refine ⟨by decide, ?_, Content.plainAll_iff.mpr (List.forall_mem_map.mpr groups)⟩
  exact .cons (by decide) trivial (.cons (by decide) trivial (.cons (by decide) hpath
    plainAttributes_nil))

theorem plain_method (s : Settings) : (method s).Plain := by
  refine ⟨by decide, ?_, trivial⟩
  split
  · exact .cons (by decide) (by decide) (.cons (by decide) trivial (.cons (by decide) trivial
      plainAttributes_nil))
  · refine .cons (by decide) (by decide) ?_
    split
    · exact .cons (by decide) trivial plainAttributes_nil
    · exact plainAttributes_nil

theorem plain_tree {a : Analysis} (root : NulFree a.tree.id) (f : Findings) :
    (tree a f).Plain := by
  refine ⟨by decide, .cons (by decide) root ?_, trivial⟩
  split
  · exact plainAttributes_nil
  · exact .cons (by decide) trivial (.cons (by decide) trivial plainAttributes_nil)

/-- An element with one text in it. -/
theorem plain_withText {name text : String} (named : Named name) (plain : NulFree text) :
    (Content.withText name [] [.text text]).Plain :=
  ⟨named, plainAttributes_nil, List.forall_mem_singleton.mpr plain⟩

/-- An element with nothing but children. -/
theorem plain_withChildren {name : String} {children : List Content} (named : Named name)
    (plain : ∀ c ∈ children, c.Plain) : (Content.withChildren name [] children).Plain :=
  ⟨named, plainAttributes_nil, Content.plainAll_iff.mpr plain⟩

theorem plain_information {a : Analysis} {f : Findings} {timing : Timing}
    (plain : Plain a f timing) : (information a f timing).Plain := by
  have hsoftware : software.Plain := ⟨by decide, by decide, trivial⟩
  have hperformance : (performance timing.elapsed).Plain :=
    plain_withChildren (by decide)
      (List.forall_mem_singleton.mpr (plain_withText (by decide) plain.elapsed))
  have hwarning : NulFree f.warningText := nulFree_intercalate (by decide) plain.warnings
  refine plain_withChildren (by decide) fun c hc => ?_
  simp only [List.mem_append, List.mem_cons, List.not_mem_nil, or_false, List.mem_map,
    Option.mem_toList] at hc
  obtain ((rfl | ⟨now, hnow, rfl⟩) | rfl | rfl | rfl) | hc := hc
  · exact hsoftware
  · exact plain_withText (by decide) (plain.now now hnow)
  · exact plain_method a.settings
  · exact plain_tree plain.tree f
  · exact hperformance
  · split at hc
    · exact absurd hc List.not_mem_nil
    · cases List.mem_singleton.mp hc
      exact plain_withText (by decide) hwarning

/-- A report on texts without NUL is plain content. -/
theorem plain_content {a : Analysis} {f : Findings} {timing : Timing}
    (plain : Plain a f timing) : (content a f timing).Plain := by
  refine plain_withChildren (by decide) (List.forall_mem_cons.mpr ⟨plain_information plain, ?_⟩)
  split
  · exact fun c hc => absurd hc List.not_mem_nil
  · refine List.forall_mem_singleton.mpr (plain_withChildren (by decide)
      (List.forall_mem_map.mpr fun r hr => plain_realization (plain.ids r hr) fun g hg => ?_))
    exact plain_group (plain.groups r hr g hg) (plain.sources r hr g hg)

end Plainness

variable {a : Analysis} {f : Findings} {timing : Timing}

/-- A report is the document with its content, whatever is logged on the way. -/
theorem result_write (a : Analysis) (f : Findings) (timing : Timing) (indented : Bool)
    (sink : Sink) :
    (write a f timing indented sink).result = (content a f timing).document indented sink := by
  unfold write
  split
  · rw [Logged.result_quiet]
  · rw [Logged.result_timed, Logged.result_quiet]

/-- A report on texts without NUL is written to any sink without a refused call, and a reader takes
from it the account of the findings. -/
theorem write_reads_back (plain : Plain a f timing) (indented : Bool) :
    (∃ text, (write a f timing indented .accepting).result = .ok text ∧
      Account.ofText? text = some (.of f)) ∧
    ∀ sink, FailsWith (·.kind ≠ .stream) (write a f timing indented sink).result := by
  have hcontent := plain_content plain
  constructor
  · obtain ⟨body, n, hdocument, hparse, houtline⟩ := Content.document_reads_back hcontent indented
    refine ⟨_, (result_write ..).trans hdocument, ?_⟩
    have hbody : (Writer.header ++ body).dropPrefix? Writer.header = some body :=
      List.dropPrefix?_append_of_beq body BEq.rfl
    simp [Account.ofText?, hbody, hparse, houtline, read?_content, Except.toOption]
  · intro sink
    rw [result_write]
    refine (Content.document_failsWith hcontent indented sink).mono ?_
    rintro _ rfl
    decide

/-- An analysis of two paths that reports one of them. Its texts have characters of markup. -/
def limited : Analysis where
  tree := .mk ⟨.bGRRelative, "a<b", .empty, false⟩
    [.mk ⟨"b & 0", 0.5, .number 0⟩ none, .mk ⟨"b & 1", 0.5, .number 0.25⟩ none]
  groups := [{
    region := "\"shield\"", name := "", changes := 0
    sources := [{
      id := "p<1>", name := "", region := "\"shield\"", scalingRate := 1
      mfd := some <| .gutenbergRichter
        { minMag := 5, maxMag := 7, binWidth := 0.1, aValue := 2, bValue := 1 }
      body := .point ⟨0, 0, 0⟩ 0 10 }] }]
  settings := { Settings.standard with limit := ⟨1, by decide⟩ }

theorem write_reads_back_limited :
    limited.run.failure = none ∧
      Plain limited limited.run.findings ⟨some "now", "1 s"⟩ ∧
      ∃ text, (write limited limited.run.findings ⟨some "now", "1 s"⟩ true .accepting).result =
          .ok text ∧
        Account.ofText? text = some {
          results := some [⟨0, "b & 0", [⟨"\"shield\"", "", 1, 1, [⟨"p<1>", .point⟩]⟩]⟩]
          warning := some "Only 1 of 2 paths are reported" } := by
  have hplain : Plain limited limited.run.findings ⟨some "now", "1 s"⟩ :=
    ⟨by decide +kernel, by decide +kernel, by decide +kernel, by decide +kernel, by decide +kernel,
      by decide +kernel, by decide +kernel⟩
  have haccount : Account.of limited.run.findings = {
      results := some [⟨0, "b & 0", [⟨"\"shield\"", "", 1, 1, [⟨"p<1>", .point⟩]⟩]⟩]
      warning := some "Only 1 of 2 paths are reported" } := by decide +kernel
  obtain ⟨⟨text, hwritten, hread⟩, _⟩ := write_reads_back hplain true
  exact ⟨by decide +kernel, hplain, text, hwritten, hread.trans (congrArg some haccount)⟩

end Report

end SeismicTree

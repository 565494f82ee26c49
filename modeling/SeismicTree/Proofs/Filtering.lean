import SeismicTree.Proofs.Results
import SeismicTree.Proofs.WellFormed
import SeismicTree.Tree.Applicability

/-!
# Filters of branch sets

What it means to pass a filter is said here without an order of tests: a filter is known by its key
and, if it asks for a kind of source, by the kind. A branch set tests its filters in the order of
the keys up to the first that is unknown or not passed, and this one alone decides. So a set applies
exactly to the sources that pass every filter, all of them known; an unknown filter is reported if
every filter in front of it is passed, and not seen otherwise.
-/

namespace SeismicTree.SourceFilter

/-- The filter has a key that is known, and asks for a kind of source that is. -/
def Known (f : String × String) : Prop :=
  f.1 ∈ ["applyToTectonicRegionType", "applyToSourceType", "applyToSources"] ∧
    (f.1 = "applyToSourceType" →
      f.2 ∈ ["point", "area", "simpleFault", "complexFault", "characteristicFault"])

/-- The source is one that the filter asks for. -/
def Passed (f : String × String) (s : Source) : Prop :=
  (f.1 = "applyToTectonicRegionType" → s.region = f.2) ∧
    (f.1 = "applyToSourceType" → s.kind.name = f.2) ∧
    (f.1 = "applyToSources" → s.id ∈ Text.tokens f.2)

instance (f : String × String) : Decidable (Known f) := inferInstanceAs (Decidable (_ ∧ _))

instance (f : String × String) (s : Source) : Decidable (Passed f s) :=
  inferInstanceAs (Decidable (_ ∧ _))

/-- The first of the filters that is unknown or that the source does not pass. -/
def StopsAt (filters : List (String × String)) (s : Source) (f : String × String) : Prop :=
  ∃ before after, filters = before ++ f :: after ∧ (∀ g ∈ before, Known g ∧ Passed g s) ∧
    ¬ (Known f ∧ Passed f s)

theorem all_passed_or_stopsAt (filters : List (String × String)) (s : Source) :
    (∀ f ∈ filters, Known f ∧ Passed f s) ∨ ∃ f, StopsAt filters s f := by
  cases h : filters.find? fun f => ! decide (Known f ∧ Passed f s) with
  | none =>
    refine Or.inl fun f hf => ?_
    simpa using List.find?_eq_none.mp h f hf
  | some f =>
    obtain ⟨hf, before, after, hsplit, hbefore⟩ := List.find?_eq_some_iff_append.mp h
    have hstop : ¬ (Known f ∧ Passed f s) := by simpa [imp_iff_not_or] using hf
    exact Or.inr ⟨f, before, after, hsplit, by simpa using hbefore, hstop⟩

/-- Where every filter is passed, there is none to stop at. -/
theorem StopsAt.not_all_passed {filters : List (String × String)} {s : Source}
    {f : String × String} (h : StopsAt filters s f) :
    ¬ ∀ g ∈ filters, Known g ∧ Passed g s := by
  obtain ⟨before, after, rfl, _, hf⟩ := h
  exact fun hall => hf (hall f (by simp))

end SeismicTree.SourceFilter

namespace SeismicTree

namespace SourceKind

theorem ofName?_name (kind : SourceKind) : ofName? kind.name = some kind := by
  cases kind <;> decide

theorem ofName?_eq_some {name : String} {kind : SourceKind} :
    ofName? name = some kind ↔ kind.name = name := by
  constructor
  · intro h
    simpa using List.find?_some h
  · rintro rfl
    exact ofName?_name kind

theorem exists_of_name {name : String}
    (h : name ∈ ["point", "area", "simpleFault", "complexFault", "characteristicFault"]) :
    ∃ kind, ofName? name = some kind := by
  have hsome : ∀ name ∈ ["point", "area", "simpleFault", "complexFault",
      "characteristicFault"], (ofName? name).isSome = true := by decide
  exact Option.isSome_iff_exists.mp (hsome name h)

end SourceKind

namespace Decision
open SourceFilter
variable {d : Decision} {s : Source} {f : String × String}

/-- The failure is an error in the use of a filter of the set. -/
def FilterFault (d : Decision) (f : String × String) (e : Failure) : Prop :=
  e.kind = .logic ∧ e.context.filter = some f.1 ∧ e.context.branchSet = some d.id

theorem passes_of_known (known : Known f) :
    d.passes f.1 f.2 s = .ok (decide (Passed f s)) := by
  obtain ⟨hkey, hkind⟩ := known
  simp only [List.mem_cons, List.not_mem_nil, or_false] at hkey
  rcases hkey with hkey | hkey | hkey
  · simp [passes, Passed, hkey, beq_eq_decide]
  · obtain ⟨kind, hk⟩ := SourceKind.exists_of_name (hkind hkey)
    have hsame : s.kind = kind ↔ s.kind.name = f.2 := by
      rw [← SourceKind.ofName?_eq_some, hk, Option.some.injEq, eq_comm]
    simp [passes, Passed, hkey, hk, ← hsame, beq_eq_decide]
  · simp [passes, Passed, hkey]

theorem passes_of_not_known (unknown : ¬ Known f) :
    ∃ e, d.passes f.1 f.2 s = .error e ∧ d.FilterFault f e := by
  by_cases hkind : f.1 = "applyToSourceType"
  · have hnone : SourceKind.ofName? f.2 = none := by
      refine Option.not_isSome_iff_eq_none.mp fun hsome => unknown ?_
      exact ⟨by simp [hkind], fun _ => SourceKind.name_of_isSome hsome⟩
    rw [passes, if_neg (by simp [hkind]), if_pos hkind, hnone]
    exact ⟨_, rfl, rfl, rfl, rfl⟩
  · have hkey : f.1 ∉ ["applyToTectonicRegionType", "applyToSourceType", "applyToSources"] :=
      fun hkey => unknown ⟨hkey, fun h => absurd h hkind⟩
    simp only [List.mem_cons, List.not_mem_nil, or_false, not_or] at hkey
    rw [passes, if_neg hkey.1, if_neg hkind, if_neg hkey.2.2]
    exact ⟨_, rfl, rfl, rfl, rfl⟩

/-- Filters that are passed are left behind. -/
theorem passesAll_append {before : List (String × String)}
    (h : ∀ g ∈ before, Known g ∧ Passed g s) (rest : List (String × String)) :
    d.passesAll s (before ++ rest) = d.passesAll s rest := by
  induction before with
  | nil => rfl
  | cons g before ih =>
    obtain ⟨⟨known, passed⟩, hbefore⟩ := List.forall_mem_cons.mp h
    rw [List.cons_append, passesAll, passes_of_known known, decide_eq_true passed]
    exact ih hbefore

theorem applies_of_all_passed (h : ∀ f ∈ d.filters.entries, Known f ∧ Passed f s) :
    d.applies s = .ok true := by
  have hleft := passesAll_append (d := d) h []
  rwa [List.append_nil] at hleft

/-- A known filter that is not passed ends the test. -/
theorem applies_of_stopsAt_known (h : StopsAt d.filters.entries s f) (known : Known f) :
    d.applies s = .ok false := by
  obtain ⟨before, after, hsplit, hbefore, hf⟩ := h
  have hnot : ¬ Passed f s := fun passed => hf ⟨known, passed⟩
  rw [applies, hsplit, passesAll_append hbefore, passesAll, passes_of_known known,
    decide_eq_false hnot]
  rfl

/-- An unknown filter with every filter in front of it passed is reported. -/
theorem applies_of_stopsAt_unknown (h : StopsAt d.filters.entries s f) (unknown : ¬ Known f) :
    ∃ e, d.applies s = .error e ∧ d.FilterFault f e := by
  obtain ⟨before, after, hsplit, hbefore, _⟩ := h
  obtain ⟨e, he, hfault⟩ := passes_of_not_known (d := d) (s := s) unknown
  rw [applies, hsplit, passesAll_append hbefore, passesAll, he]
  exact ⟨e, rfl, hfault⟩

/-- A set applies to a source that passes all its filters, all of them known. It does not apply if
the test stops at a filter that is known, and fails, with an error that names the filter and the
set, if the test stops at one that is not. -/
theorem applies_exact (d : Decision) (s : Source) :
    (d.applies s = .ok true ↔ ∀ f ∈ d.filters.entries, Known f ∧ Passed f s) ∧
      (d.applies s = .ok false ↔ ∃ f, StopsAt d.filters.entries s f ∧ Known f) ∧
      (Fails (d.applies s) ↔ ∃ f, StopsAt d.filters.entries s f ∧ ¬ Known f) ∧
      FailsWith (fun e => ∃ f, StopsAt d.filters.entries s f ∧ ¬ Known f ∧ d.FilterFault f e)
        (d.applies s) := by
  rcases all_passed_or_stopsAt d.filters.entries s with hall | ⟨f, hstops⟩
  · rw [applies_of_all_passed hall]
    refine ⟨iff_of_true rfl hall, iff_of_false nofun ?_, iff_of_false (not_fails_ok _) ?_,
      failsWith_ok _⟩
    · exact fun ⟨f, hstops, _⟩ => hstops.not_all_passed hall
    · exact fun ⟨f, hstops, _⟩ => hstops.not_all_passed hall
  · have hnot := hstops.not_all_passed
    by_cases known : Known f
    · have happlies := applies_of_stopsAt_known hstops known
      refine ⟨iff_of_false ?_ hnot, iff_of_true happlies ⟨f, hstops, known⟩,
        iff_of_false ?_ ?_, ?_⟩
      · rw [happlies]
        nofun
      · rw [happlies]
        exact not_fails_ok _
      · rintro ⟨f', hstops', unknown⟩
        obtain ⟨e, he, _⟩ := applies_of_stopsAt_unknown hstops' unknown
        rw [happlies] at he
        cases he
      · rw [happlies]
        exact failsWith_ok _
    · obtain ⟨e, he, hfault⟩ := applies_of_stopsAt_unknown hstops known
      refine ⟨iff_of_false ?_ hnot, iff_of_false ?_ ?_, iff_of_true ⟨e, he⟩ ⟨f, hstops, known⟩, ?_⟩
      · rw [he]
        nofun
      · rw [he]
        nofun
      · rintro ⟨f', hstops', known'⟩
        rw [applies_of_stopsAt_known hstops' known'] at he
        cases he
      · intro e' he'
        rw [he] at he'
        cases he'
        exact ⟨f, hstops, known, hfault⟩

/-- A set for areas, with a filter behind that is not known. -/
def forAreas : Decision where
  uncertainty := .bGRRelative
  id := "bs"
  filters := Filters.ofList [("applyToSourceType", "area"), ("zzz", "x")]
  collapsed := false

def somePoint : Source where
  id := "p1"
  name := ""
  region := "Active Shallow Crust"
  mfd := none
  scalingRate := 1
  body := .point { longitude := 0, latitude := 0, depth := 0 } 0 10

/-- The test of a point stops at the filter for areas and does not see the unknown one. -/
theorem forAreas_applies_somePoint :
    ("zzz", "x") ∈ forAreas.filters.entries ∧ ¬ Known ("zzz", "x") ∧
      forAreas.applies somePoint = .ok false :=
  ⟨by decide, by decide, rfl⟩

end Decision

end SeismicTree

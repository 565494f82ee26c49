import SeismicTree.Analysis
import SeismicTree.Proofs.Results

/-!
# Realizations in order

An enumeration and a drawing of samples do the same with what they go through. Each path within the
limit, and each sample, is the draft of a realization. The drafts are realized in order, each at the
position that follows the realizations before it, and the first that fails ends the run. What a run
counts beside its realizations is followed apart from them, and its log has no part here.
-/

namespace SeismicTree

/-- What a realization is made of: the weight and the identifiers of a path or of a sample. -/
structure Draft where
  weight : Binary64
  ids : List String

def Draft.ofPath (p : Path Binary64) : Draft := ⟨p.weight, p.ids⟩

/-- The realization of a draft at a position, with all groups transformed. -/
structure Realization.Completes (r : Realization) (a : Analysis) (position : Nat) (d : Draft) :
    Prop where
  ordinal : r.ordinal = position
  weight : r.weight = d.weight
  ids : r.ids = d.ids
  groups : (a.transform position d.ids).result = .ok r.groups

namespace Analysis
variable {a : Analysis} {f : Failure} {n : Nat} {d : Draft} {r : Realization}

theorem realize_eq_ok : (a.realize n d.weight d.ids).result = .ok r ↔ r.Completes a n d := by
  rw [realize, Logged.result_bind, bind_eq_ok]
  constructor
  · rintro ⟨groups, hgroups, h⟩
    cases h
    exact ⟨rfl, rfl, rfl, hgroups⟩
  · rintro ⟨rfl, hweight, hids, hgroups⟩
    refine ⟨r.groups, hgroups, ?_⟩
    rw [← hweight, ← hids]
    rfl

/-- A draft fails as the transformation of the groups along its identifiers does. -/
theorem realize_eq_error :
    (a.realize n d.weight d.ids).result = .error f ↔ (a.transform n d.ids).result = .error f := by
  rw [realize, Logged.result_bind]
  cases (a.transform n d.ids).result with
  | error f' => exact ⟨fun h => by cases h; rfl, fun h => by cases h; rfl⟩
  | ok groups => exact iff_of_false nofun nofun

/-- The realizations of drafts from a position on, up to the first that fails, and its failure. -/
def realizeFrom (a : Analysis) (n : Nat) : List Draft → List Realization × Option Failure
  | [] => ([], none)
  | d :: ds =>
    match (a.realize n d.weight d.ids).result with
    | .ok r => (r :: (a.realizeFrom (n + 1) ds).1, (a.realizeFrom (n + 1) ds).2)
    | .error f => ([], some f)

theorem realizeFrom_of_ok (ds : List Draft) (h : (a.realize n d.weight d.ids).result = .ok r) :
    a.realizeFrom n (d :: ds) =
      (r :: (a.realizeFrom (n + 1) ds).1, (a.realizeFrom (n + 1) ds).2) := by
  rw [realizeFrom, h]

theorem realizeFrom_of_error (ds : List Draft)
    (h : (a.realize n d.weight d.ids).result = .error f) :
    a.realizeFrom n (d :: ds) = ([], some f) := by
  rw [realizeFrom, h]

section Drafts
variable {before after : List Draft}

/-- Drafts in front that are all realized are left behind. -/
theorem realizeFrom_append (complete : (a.realizeFrom n before).2 = none) (after : List Draft) :
    a.realizeFrom n (before ++ after) =
      ((a.realizeFrom n before).1 ++ (a.realizeFrom (n + before.length) after).1,
        (a.realizeFrom (n + before.length) after).2) := by
  induction before generalizing n with
  | nil => rfl
  | cons d before ih =>
    cases hrealize : (a.realize n d.weight d.ids).result with
    | error f =>
      rw [realizeFrom_of_error _ hrealize] at complete
      cases complete
    | ok r =>
      rw [realizeFrom_of_ok _ hrealize] at complete
      rw [List.cons_append, realizeFrom_of_ok _ hrealize, realizeFrom_of_ok _ hrealize,
        ih complete, List.length_cons, Nat.add_right_comm, Nat.add_assoc, List.cons_append]

/-- Drafts are all realized if each of them can be at its position. -/
theorem realizeFrom_complete_iff {ds : List Draft} :
    (a.realizeFrom n ds).2 = none ↔
      ∀ i d, ds[i]? = some d → ¬ Fails (a.transform (n + i) d.ids).result := by
  induction ds generalizing n with
  | nil => simp [realizeFrom]
  | cons d ds ih =>
    cases hrealize : (a.realize n d.weight d.ids).result with
    | error f =>
      rw [realizeFrom_of_error _ hrealize]
      refine iff_of_false nofun fun h => h 0 d rfl ?_
      exact ⟨f, realize_eq_error.mp hrealize⟩
    | ok r =>
      rw [realizeFrom_of_ok _ hrealize, ih]
      have hfirst := (realize_eq_ok.mp hrealize).groups
      constructor
      · intro h i d' hd'
        cases i with
        | zero =>
          cases hd'
          rw [Nat.add_zero, hfirst]
          exact not_fails_ok _
        | succ i =>
          rw [← Nat.add_assoc, Nat.add_right_comm]
          exact h i d' hd'
      · intro h i d' hd'
        rw [Nat.add_right_comm, Nat.add_assoc]
        exact h (i + 1) d' hd'

/-- Realizations are those of the first drafts, at their positions. -/
theorem realizeFrom_completes {ds : List Draft} {i : Nat}
    (h : (a.realizeFrom n ds).1[i]? = some r) :
    ∃ d, ds[i]? = some d ∧ r.Completes a (n + i) d := by
  induction ds generalizing n i with
  | nil => cases h
  | cons d ds ih =>
    cases hrealize : (a.realize n d.weight d.ids).result with
    | error f =>
      rw [realizeFrom_of_error _ hrealize] at h
      cases h
    | ok r' =>
      rw [realizeFrom_of_ok _ hrealize] at h
      cases i with
      | zero =>
        cases h
        exact ⟨d, rfl, realize_eq_ok.mp hrealize⟩
      | succ i =>
        obtain ⟨d', hd', hcompletes⟩ := ih h
        rw [Nat.add_right_comm, Nat.add_assoc] at hcompletes
        exact ⟨d', hd', hcompletes⟩

theorem length_realizeFrom {ds : List Draft} (complete : (a.realizeFrom n ds).2 = none) :
    (a.realizeFrom n ds).1.length = ds.length := by
  induction ds generalizing n with
  | nil => rfl
  | cons d ds ih =>
    cases hrealize : (a.realize n d.weight d.ids).result with
    | error f =>
      rw [realizeFrom_of_error _ hrealize] at complete
      cases complete
    | ok r =>
      rw [realizeFrom_of_ok _ hrealize] at complete ⊢
      rw [List.length_cons, List.length_cons, ih complete]

theorem ids_realizeFrom {ds : List Draft} (complete : (a.realizeFrom n ds).2 = none) :
    (a.realizeFrom n ds).1.map (·.ids) = ds.map (·.ids) := by
  refine List.ext_getElem? fun i => ?_
  rw [List.getElem?_map, List.getElem?_map]
  cases hr : (a.realizeFrom n ds).1[i]? with
  | none =>
    rw [List.getElem?_eq_none_iff, length_realizeFrom complete] at hr
    rw [List.getElem?_eq_none hr]
    rfl
  | some r =>
    obtain ⟨d, hd, hcompletes⟩ := realizeFrom_completes hr
    rw [hd, Option.map_some, Option.map_some, hcompletes.ids]

/-- The failure of drafts is that of the first of them that fails, and the realizations are those of
the drafts in front of it. -/
theorem realizeFrom_eq_some {ds : List Draft} (h : (a.realizeFrom n ds).2 = some f) :
    ∃ before d after, ds = before ++ d :: after ∧ (a.realizeFrom n before).2 = none ∧
      (a.realizeFrom n ds).1 = (a.realizeFrom n before).1 ∧
      (a.transform (n + before.length) d.ids).result = .error f := by
  induction ds generalizing n with
  | nil => cases h
  | cons d ds ih =>
    cases hrealize : (a.realize n d.weight d.ids).result with
    | error f' =>
      rw [realizeFrom_of_error _ hrealize] at h ⊢
      cases h
      exact ⟨[], d, ds, rfl, rfl, rfl, realize_eq_error.mp hrealize⟩
    | ok r =>
      rw [realizeFrom_of_ok _ hrealize] at h ⊢
      obtain ⟨before, d', after, rfl, hcomplete, hrealized, hfails⟩ := ih h
      refine ⟨d :: before, d', after, rfl, ?_, ?_, ?_⟩
      · rw [realizeFrom_of_ok _ hrealize]
        exact hcomplete
      · rw [realizeFrom_of_ok _ hrealize, hrealized]
      · rw [List.length_cons, ← Nat.add_assoc, Nat.add_right_comm]
        exact hfails

/-- The first of drafts that are all realized lead to the first realizations. -/
theorem realizeFrom_take {ds : List Draft} (complete : (a.realizeFrom n ds).2 = none) (k : Nat) :
    a.realizeFrom n (ds.take k) = ((a.realizeFrom n ds).1.take k, none) := by
  induction ds generalizing n k with
  | nil => simp [realizeFrom]
  | cons d ds ih =>
    cases k with
    | zero => rfl
    | succ k =>
      cases hrealize : (a.realize n d.weight d.ids).result with
      | error f =>
        rw [realizeFrom_of_error _ hrealize] at complete
        cases complete
      | ok r =>
        rw [realizeFrom_of_ok _ hrealize] at complete
        rw [List.take_succ_cons, realizeFrom_of_ok _ hrealize, realizeFrom_of_ok _ hrealize,
          ih complete, List.take_succ_cons]

/-- Drafts say all that settings have to do with realizations. -/
theorem realizeFrom_settings (s : Settings) (ds : List Draft) :
    realizeFrom { a with settings := s } n ds = a.realizeFrom n ds := by
  induction ds generalizing n with
  | nil => rfl
  | cons d ds ih => rw [realizeFrom, realizeFrom, ih]; rfl

end Drafts

/-- A run realizes drafts behind earlier realizations. -/
structure Realizes (a : Analysis) (earlier : List Realization) (ds : List Draft)
    (run : AnalysisRun) : Prop where
  realizations : run.findings.realizations = earlier ++ (a.realizeFrom earlier.length ds).1
  failure : run.failure = (a.realizeFrom earlier.length ds).2

section Steps
variable {found : Findings} {ds : List Draft} {entries : List Log.Entry}

theorem realizes_nil : a.Realizes found.realizations [] ⟨found, none, entries⟩ :=
  ⟨(List.append_nil _).symm, rfl⟩

theorem realizes_of_error (h : (a.realize found.realizations.length d.weight d.ids).result =
    .error f) : a.Realizes found.realizations (d :: ds) ⟨found, some f, entries⟩ := by
  constructor
  · rw [realizeFrom_of_error _ h, List.append_nil]
  · rw [realizeFrom_of_error _ h]

theorem Realizes.of_ok {earlier : List Realization} {run : AnalysisRun}
    (h : (a.realize earlier.length d.weight d.ids).result = .ok r)
    (rest : a.Realizes (earlier ++ [r]) ds run) : a.Realizes earlier (d :: ds) run := by
  obtain ⟨hrealizations, hfailure⟩ := rest
  rw [List.length_append, List.length_singleton] at hrealizations hfailure
  constructor
  · rw [realizeFrom_of_ok _ h, hrealizations, List.append_assoc, List.singleton_append]
  · rw [realizeFrom_of_ok _ h, hfailure]

theorem enumerateFrom_beyond (beyond : a.withinLimit found = false) (p : Path Binary64)
    (rest : List (Path Binary64)) :
    a.enumerateFrom found (p :: rest) = a.enumerateFrom (found.count p.weight) rest := by
  rw [enumerateFrom, beyond]
  rfl

theorem enumerateFrom_of_ok {p : Path Binary64} (rest : List (Path Binary64))
    (within : a.withinLimit found = true)
    (h : (a.realize found.realizations.length p.weight p.ids).result = .ok r) :
    a.enumerateFrom found (p :: rest) =
      (a.enumerateFrom ((found.count p.weight).add r) rest).after
        (a.realize found.realizations.length p.weight p.ids).entries := by
  simp only [enumerateFrom, within, h, if_true]

theorem enumerateFrom_of_error {p : Path Binary64} (rest : List (Path Binary64))
    (within : a.withinLimit found = true)
    (h : (a.realize found.realizations.length p.weight p.ids).result = .error f) :
    a.enumerateFrom found (p :: rest) =
      ⟨found.count p.weight, some f,
        (a.realize found.realizations.length p.weight p.ids).entries⟩ := by
  simp only [enumerateFrom, within, h, if_true]

/-- The first of some paths, as many as become realizations behind a number of others. -/
def reported (a : Analysis) (before : Nat) (paths : List (Path Binary64)) : List (Path Binary64) :=
  if a.settings.limit.val = 0 then paths else paths.take (a.settings.limit.val - before)

theorem reported_within (within : a.withinLimit found = true) (p : Path Binary64)
    (rest : List (Path Binary64)) :
    a.reported found.realizations.length (p :: rest) =
      p :: a.reported (found.realizations.length + 1) rest := by
  rw [withinLimit, Bool.or_eq_true, decide_eq_true_eq, decide_eq_true_eq] at within
  rw [reported, reported]
  split
  · rfl
  · have hroom : a.settings.limit.val - found.realizations.length =
        a.settings.limit.val - (found.realizations.length + 1) + 1 := by omega
    rw [hroom, List.take_succ_cons]

theorem reported_beyond (beyond : a.withinLimit found = false) (paths : List (Path Binary64)) :
    a.reported found.realizations.length paths = [] := by
  rw [withinLimit, Bool.or_eq_false_iff, decide_eq_false_iff_not, decide_eq_false_iff_not] at beyond
  have hroom : a.settings.limit.val - found.realizations.length = 0 := by omega
  rw [reported, if_neg beyond.1, hroom, List.take_zero]

theorem mem_of_mem_reported {before : Nat} {paths : List (Path Binary64)} {p : Path Binary64}
    (h : p ∈ a.reported before paths) : p ∈ paths := by
  rw [reported] at h
  split at h
  · exact h
  · exact List.mem_of_mem_take h

/-- Of paths on top of what has been found, those within the limit are realized. -/
theorem enumerateFrom_realizes (found : Findings) (paths : List (Path Binary64)) :
    a.Realizes found.realizations
      ((a.reported found.realizations.length paths).map Draft.ofPath)
      (a.enumerateFrom found paths) := by
  induction paths generalizing found with
  | nil =>
    have hnone : a.reported found.realizations.length [] = [] := by simp [reported]
    rw [hnone]
    exact realizes_nil
  | cons p rest ih =>
    have hcounted : (found.count p.weight).realizations = found.realizations := rfl
    cases hwithin : a.withinLimit found with
    | false =>
      have hskip := ih (found.count p.weight)
      rw [hcounted, reported_beyond hwithin] at hskip
      rw [reported_beyond hwithin, enumerateFrom_beyond hwithin]
      exact hskip
    | true =>
      rw [reported_within hwithin, List.map_cons]
      cases hrealize : (a.realize found.realizations.length p.weight p.ids).result with
      | error f =>
        rw [enumerateFrom_of_error rest hwithin hrealize]
        rw [← hcounted] at hrealize ⊢
        exact realizes_of_error (d := .ofPath p) hrealize
      | ok r =>
        have hnext := ih ((found.count p.weight).add r)
        have hadded : ((found.count p.weight).add r).realizations =
          found.realizations ++ [r] := rfl
        rw [hadded, List.length_append, List.length_singleton] at hnext
        rw [enumerateFrom_of_ok rest hwithin hrealize]
        obtain ⟨hrealizations, hfailure⟩ := Realizes.of_ok (d := .ofPath p) hrealize hnext
        exact ⟨hrealizations, hfailure⟩

/-- An enumeration that no failure ends counts every path, within the limit or not. -/
theorem enumerateFrom_counts {paths : List (Path Binary64)}
    (complete : (a.enumerateFrom found paths).failure = none) :
    (a.enumerateFrom found paths).findings.pathCount = found.pathCount + paths.length ∧
      (a.enumerateFrom found paths).findings.totalWeight =
        (paths.map (·.weight)).foldl (· + ·) found.totalWeight ∧
      (a.enumerateFrom found paths).findings.warnings = found.warnings := by
  induction paths generalizing found with
  | nil => exact ⟨rfl, rfl, rfl⟩
  | cons p rest ih =>
    rw [List.length_cons, ← Nat.add_assoc, Nat.add_right_comm]
    cases hwithin : a.withinLimit found with
    | false =>
      rw [enumerateFrom_beyond hwithin] at complete ⊢
      exact ih complete
    | true =>
      cases hrealize : (a.realize found.realizations.length p.weight p.ids).result with
      | error f =>
        rw [enumerateFrom_of_error rest hwithin hrealize] at complete
        cases complete
      | ok r =>
        rw [enumerateFrom_of_ok rest hwithin hrealize] at complete ⊢
        exact ih complete

def sampleDraft (a : Analysis) (i : Nat) : Draft :=
  ⟨1 / Binary64.ofNat a.settings.samples.val, a.sampleIds i⟩

theorem sampleFrom_of_ok {i : Nat} (rest : List Nat)
    (h : (a.realize found.realizations.length (a.sampleDraft i).weight
      (a.sampleDraft i).ids).result = .ok r) :
    ∃ entries, a.sampleFrom found (i :: rest) =
      (a.sampleFrom (found.add r) rest).after entries := by
  rw [sampleDraft] at h
  simp only [sampleFrom, h]
  exact ⟨_, rfl⟩

theorem sampleFrom_of_error {i : Nat} (rest : List Nat)
    (h : (a.realize found.realizations.length (a.sampleDraft i).weight
      (a.sampleDraft i).ids).result = .error f) :
    ∃ entries, a.sampleFrom found (i :: rest) = ⟨found, some f, entries⟩ := by
  rw [sampleDraft] at h
  simp only [sampleFrom, h]
  exact ⟨_, rfl⟩

/-- Samples on top of what has been found are realized, and no path is counted for them. -/
theorem sampleFrom_realizes (found : Findings) (positions : List Nat) :
    a.Realizes found.realizations (positions.map a.sampleDraft) (a.sampleFrom found positions) ∧
      (a.sampleFrom found positions).findings.pathCount = found.pathCount := by
  induction positions generalizing found with
  | nil => exact ⟨realizes_nil, rfl⟩
  | cons i rest ih =>
    rw [List.map_cons]
    cases hrealize : (a.realize found.realizations.length (a.sampleDraft i).weight
      (a.sampleDraft i).ids).result with
    | error f =>
      obtain ⟨entries, hstop⟩ := sampleFrom_of_error rest hrealize
      rw [hstop]
      exact ⟨realizes_of_error hrealize, rfl⟩
    | ok r =>
      obtain ⟨entries, hgoOn⟩ := sampleFrom_of_ok rest hrealize
      obtain ⟨hnext, hcount⟩ := ih (found.add r)
      obtain ⟨hrealizations, hfailure⟩ := Realizes.of_ok hrealize hnext
      rw [hgoOn]
      exact ⟨⟨hrealizations, hfailure⟩, hcount⟩

end Steps

/-- The drafts of an analysis: its samples, or its paths up to the limit. -/
def drafts (a : Analysis) : List Draft :=
  if a.samples then (List.range a.settings.samples.val).map a.sampleDraft
  else (a.reported 0 (Cursor.start a.tree).paths).map Draft.ofPath

def enumerated (a : Analysis) : AnalysisRun := a.enumerateFrom .none (Cursor.start a.tree).paths

theorem enumerate_of_failure (h : a.enumerated.failure = some f) :
    a.enumerate = a.enumerated := by
  rw [enumerated] at h
  simp only [enumerate, h]
  rfl

theorem enumerate_of_complete (h : a.enumerated.failure = none) :
    a.enumerate.findings = a.concluded a.enumerated.findings ∧ a.enumerate.failure = none := by
  rw [enumerated] at h
  simp only [enumerate, h]
  exact ⟨rfl, trivial⟩

theorem enumerate_failure_eq (a : Analysis) : a.enumerate.failure = a.enumerated.failure := by
  cases h : a.enumerated.failure with
  | none => exact (enumerate_of_complete h).2
  | some f => rw [enumerate_of_failure h, h]

theorem concluded_realizations (a : Analysis) (found : Findings) :
    (a.concluded found).realizations = found.realizations := by
  simp only [concluded]
  split <;> split <;> rfl

theorem run_of_samples (h : a.samples = true) :
    a.run.findings = a.sample.findings ∧ a.run.failure = a.sample.failure := by
  simp only [run, h, if_true, timed]
  split <;> exact ⟨rfl, rfl⟩

theorem run_of_paths (h : a.samples = false) :
    a.run.findings = a.enumerate.findings ∧ a.run.failure = a.enumerate.failure := by
  simp only [run, h, timed]
  split <;> exact ⟨rfl, rfl⟩

/-- A run realizes the drafts of the analysis in order, up to the first that fails. -/
theorem run_realizes (a : Analysis) :
    a.run.findings.realizations = (a.realizeFrom 0 a.drafts).1 ∧
      a.run.failure = (a.realizeFrom 0 a.drafts).2 := by
  rw [drafts]
  cases hsamples : a.samples with
  | true =>
    obtain ⟨hfindings, hfailure⟩ := run_of_samples hsamples
    obtain ⟨hrealizes, _⟩ := a.sampleFrom_realizes .none (List.range a.settings.samples.val)
    rw [if_pos rfl]
    exact ⟨hfindings ▸ hrealizes.realizations, hfailure ▸ hrealizes.failure⟩
  | false =>
    obtain ⟨hfindings, hfailure⟩ := run_of_paths hsamples
    have hrealizes := a.enumerateFrom_realizes .none (Cursor.start a.tree).paths
    have hkept : a.enumerate.findings.realizations = a.enumerated.findings.realizations := by
      cases h : a.enumerated.failure with
      | none => rw [(enumerate_of_complete h).1, concluded_realizations]
      | some f => rw [enumerate_of_failure h]
    rw [if_neg Bool.false_ne_true]
    refine ⟨?_, hfailure.trans (a.enumerate_failure_eq.trans hrealizes.failure)⟩
    rw [hfindings, hkept]
    exact hrealizes.realizations

/-- Every realization of a run is that of the draft at its position, whether the run completes or
not. -/
theorem run_completes {i : Nat} (h : a.run.findings.realizations[i]? = some r) :
    ∃ d, a.drafts[i]? = some d ∧ r.Completes a i d := by
  rw [a.run_realizes.1] at h
  obtain ⟨d, hd, hcompletes⟩ := realizeFrom_completes h
  rw [Nat.zero_add] at hcompletes
  exact ⟨d, hd, hcompletes⟩

theorem run_ordinals (a : Analysis) :
    a.run.findings.realizations.map (·.ordinal) =
      List.range a.run.findings.realizations.length := by
  refine List.ext_getElem (by simp) fun i hi _ => ?_
  rw [List.length_map] at hi
  obtain ⟨d, _, hcompletes⟩ := run_completes (List.getElem?_eq_getElem hi)
  rw [List.getElem_map, List.getElem_range]
  exact hcompletes.ordinal

end Analysis

end SeismicTree

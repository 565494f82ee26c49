import SeismicTree.Proofs.AnalysisFailures
import SeismicTree.Proofs.Realizations

/-!
# Limited enumerations

A limit says how many paths become realizations and has a part in nothing else. All paths are counted
and weighed in the same order, and the realizations are the first of those that an enumeration
without a limit leads to. That some paths are not reported is said in a warning, exactly if it is so.
-/

namespace SeismicTree

def weightWarnings (w : Binary64) : List String :=
  if Binary64.isClose 1 w 0.000000001 then [] else ["The path weights sum up to " ++ w.sixDecimals]

/-- The warning that an enumeration reports fewer paths than there are. -/
def unreported (limit pathCount : Nat) : String :=
  "Only " ++ toString limit ++ " of " ++ toString pathCount ++ " paths are reported"

theorem unreported_not_mem_weightWarnings (limit pathCount : Nat) (w : Binary64) :
    unreported limit pathCount ∉ weightWarnings w := by
  rw [weightWarnings]
  split
  · exact List.not_mem_nil
  · intro h
    have hsame := congrArg (·.toList.head?) (List.mem_singleton.mp h)
    simp [unreported] at hsame

/-- What an enumeration up to a limit has found of what one without a limit finds. -/
structure Findings.LimitedTo (limit : Nat) (whole part : Findings) : Prop where
  pathCount : part.pathCount = whole.pathCount
  totalWeight : part.totalWeight = whole.totalWeight
  each : whole.realizations.length = whole.pathCount
  first : 0 < limit → part.realizations = whole.realizations.take limit
  all : limit = 0 ∨ whole.pathCount ≤ limit → part.realizations = whole.realizations
  ordinals : part.realizations.map (·.ordinal) = List.range part.realizations.length
  warnings : part.warnings = whole.warnings ++
    if 0 < limit ∧ limit < whole.pathCount then [unreported limit whole.pathCount] else []
  warned : unreported limit whole.pathCount ∈ part.warnings ↔
    0 < limit ∧ limit < whole.pathCount

namespace Analysis
variable {a : Analysis}

theorem concluded_counts (a : Analysis) (found : Findings) :
    (a.concluded found).pathCount = found.pathCount ∧
      (a.concluded found).totalWeight = found.totalWeight := by
  simp only [concluded]
  split <;> split <;> exact ⟨rfl, rfl⟩

theorem concluded_warnings (a : Analysis) (found : Findings) :
    (a.concluded found).warnings = found.warnings ++ weightWarnings found.totalWeight ++
      if 0 < a.settings.limit.val ∧ a.settings.limit.val < found.pathCount then
        [unreported a.settings.limit.val found.pathCount] else [] := by
  simp only [concluded, weightWarnings]
  split <;> split <;> simp_all [Findings.warn, unreported]

/-- What a complete enumeration has counted, and its warnings. -/
theorem run_counts (enumerates : a.samples = false) (complete : a.run.failure = none) :
    a.run.findings.pathCount = (Cursor.start a.tree).paths.length ∧
      a.run.findings.totalWeight = totalWeight ((Cursor.start a.tree).paths.map (·.weight)) ∧
      a.run.findings.warnings = weightWarnings a.run.findings.totalWeight ++
        if 0 < a.settings.limit.val ∧ a.settings.limit.val < a.run.findings.pathCount then
          [unreported a.settings.limit.val a.run.findings.pathCount] else [] := by
  obtain ⟨hfindings, hfailure⟩ := run_of_paths enumerates
  have hcomplete : a.enumerated.failure = none := by
    rw [← enumerate_failure_eq, ← hfailure, complete]
  obtain ⟨hpaths, hweight, hwarnings⟩ := enumerateFrom_counts hcomplete
  obtain ⟨hcount, htotal⟩ := a.concluded_counts a.enumerated.findings
  rw [hfindings, (enumerate_of_complete hcomplete).1, concluded_warnings, hcount, htotal]
  refine ⟨?_, hweight, ?_⟩
  · rw [enumerated, hpaths]
    exact Nat.zero_add _
  · have hnone : a.enumerated.findings.warnings = [] := hwarnings
    rw [hnone, List.nil_append]

def withLimit (a : Analysis) (limit : Count) : Analysis :=
  { a with settings := { a.settings with limit } }

theorem realizeFrom_withLimit (limit : Count) (n : Nat) (ds : List Draft) :
    (a.withLimit limit).realizeFrom n ds = a.realizeFrom n ds := realizeFrom_settings _ ds

section Limits
variable {limit : Count} (enumerates : a.samples = false)
  (complete : (a.withLimit 0).run.failure = none)
include enumerates

theorem drafts_withLimit (limited : limit.val ≠ 0) :
    (a.withLimit limit).drafts = (a.withLimit 0).drafts.take limit.val := by
  have hpart : (a.withLimit limit).samples = false := enumerates
  have hwhole : (a.withLimit 0).samples = false := enumerates
  have hsome : ¬ (a.withLimit limit).settings.limit.val = 0 := limited
  rw [drafts, drafts, hpart, hwhole, if_neg Bool.false_ne_true, if_neg Bool.false_ne_true, reported,
    reported, if_neg hsome, ← List.map_take]
  rfl

include complete

/-- The realizations within a limit are the first of those without one. -/
theorem realizations_withLimit (limit : Count) :
    (a.withLimit limit).run.failure = none ∧
      (a.withLimit limit).run.findings.realizations =
        if limit.val = 0 then (a.withLimit 0).run.findings.realizations
        else (a.withLimit 0).run.findings.realizations.take limit.val := by
  split
  · rename_i hzero
    rw [show limit = 0 from Fin.ext hzero]
    exact ⟨complete, rfl⟩
  · rename_i hsome
    obtain ⟨hwhole, hends⟩ := (a.withLimit 0).run_realizes
    obtain ⟨hpart, hends'⟩ := (a.withLimit limit).run_realizes
    rw [realizeFrom_withLimit] at hwhole hends hpart hends'
    rw [drafts_withLimit enumerates hsome, realizeFrom_take (hends.symm.trans complete)]
      at hpart hends'
    exact ⟨hends', hpart.trans (congrArg _ hwhole.symm)⟩

/-- A complete enumeration without a limit has a realization for each path. -/
theorem length_realizations :
    (a.withLimit 0).run.findings.realizations.length =
      (a.withLimit 0).run.findings.pathCount := by
  have hwhole : (a.withLimit 0).samples = false := enumerates
  obtain ⟨hrealizations, hends⟩ := (a.withLimit 0).run_realizes
  rw [hrealizations, length_realizeFrom (hends.symm.trans complete), drafts, hwhole,
    if_neg Bool.false_ne_true, List.length_map, (run_counts hwhole complete).1]
  rfl

/-- What is counted is the same with any limit, and a limit adds one warning at most. -/
theorem counts_withLimit (limit : Count) :
    (a.withLimit limit).run.findings.pathCount = (a.withLimit 0).run.findings.pathCount ∧
      (a.withLimit limit).run.findings.totalWeight = (a.withLimit 0).run.findings.totalWeight ∧
      (a.withLimit 0).run.findings.warnings =
        weightWarnings (a.withLimit 0).run.findings.totalWeight ∧
      (a.withLimit limit).run.findings.warnings = (a.withLimit 0).run.findings.warnings ++
        if 0 < limit.val ∧ limit.val < (a.withLimit 0).run.findings.pathCount then
          [unreported limit.val (a.withLimit 0).run.findings.pathCount] else [] := by
  have hwhole : (a.withLimit 0).samples = false := enumerates
  have hpart : (a.withLimit limit).samples = false := enumerates
  obtain ⟨hcount, hweight, hwarnings⟩ := run_counts hwhole complete
  obtain ⟨hcount', hweight', hwarnings'⟩ :=
    run_counts hpart (realizations_withLimit enumerates complete limit).1
  have hsameCount := hcount'.trans hcount.symm
  have hsameWeight := hweight'.trans hweight.symm
  have hnoLimit : (a.withLimit 0).run.findings.warnings =
      weightWarnings (a.withLimit 0).run.findings.totalWeight := by
    rw [hwarnings, if_neg (fun h => Nat.lt_irrefl 0 h.1), List.append_nil]
  rw [hsameCount, hsameWeight, ← hnoLimit] at hwarnings'
  exact ⟨hsameCount, hsameWeight, hnoLimit, hwarnings'⟩

/-- A limit leaves a complete enumeration as it is, apart from the realizations behind the limit and
the warning that there are paths of which none is reported. -/
theorem run_withLimit (limit : Count) :
    (a.withLimit limit).run.failure = none ∧
      (a.withLimit 0).run.findings.LimitedTo limit.val (a.withLimit limit).run.findings := by
  obtain ⟨hcomplete, hrealizations⟩ := realizations_withLimit enumerates complete limit
  have hlength := length_realizations enumerates complete
  obtain ⟨hcount, hweight, hwarnings, hwarnings'⟩ := counts_withLimit enumerates complete limit
  refine ⟨hcomplete, hcount, hweight, hlength, ?first, ?all, run_ordinals _, hwarnings', ?warned⟩
  case first =>
    intro hpos
    rw [hrealizations, if_neg (Nat.ne_of_gt hpos)]
  case all =>
    intro hall
    rw [hrealizations]
    split
    · rfl
    · rename_i hsome
      exact List.take_of_length_le (Nat.le_trans (Nat.le_of_eq hlength) (hall.resolve_left hsome))
  case warned =>
    rw [hwarnings', hwarnings, List.mem_append,
      or_iff_right (unreported_not_mem_weightWarnings _ _ _)]
    split
    · rename_i hbetween
      exact iff_of_true (List.mem_singleton_self _) hbetween
    · rename_i hbetween
      exact iff_of_false List.not_mem_nil hbetween

end Limits

/-- Two of four paths are reported, and a warning says so. -/
theorem run_withLimit_repeated :
    ∃ a : Analysis, a.tree = .repeated ∧ a.groups = [pointGroup (some gentleLaw)] ∧
      a.samples = false ∧ (a.withLimit 0).run.failure = none ∧ (a.withLimit 2).run.failure = none ∧
      (a.withLimit 2).run.findings.pathCount = 4 ∧
      (a.withLimit 2).run.findings.realizations.length = 2 ∧
      unreported 2 4 ∈ (a.withLimit 2).run.findings.warnings := by
  let a : Analysis := ⟨.repeated, [pointGroup (some gentleLaw)], .standard⟩
  have enumerates : a.samples = false := rfl
  have complete : (a.withLimit 0).run.failure = none := by decide +kernel
  have hcount : (a.withLimit 0).run.findings.pathCount = 4 := by decide +kernel
  obtain ⟨hcomplete, hlimited⟩ := run_withLimit enumerates complete 2
  refine ⟨a, rfl, rfl, enumerates, complete, hcomplete, hlimited.pathCount.trans hcount, ?_, ?_⟩
  · rw [hlimited.first (by decide), List.length_take, hlimited.each, hcount]
    rfl
  · have hwarned := hlimited.warned
    rw [hcount] at hwarned
    exact hwarned.mpr ⟨by decide, by decide⟩

end Analysis

end SeismicTree

import SeismicTree.Proofs.AnalysisFailures
import SeismicTree.Proofs.Realizations

/-!
# Drawing samples

The sample at a position has a seed of its own: the first seed and the position. Both are below
`2 ^ 31`, so no sum wraps around and no two samples of a run share a seed. The seeds do not depend on
how many samples are drawn, so a longer drawing starts as a shorter one does. How samples of different
seeds are related is not claimed.
-/

namespace SeismicTree.Analysis
variable {a : Analysis} {s : Settings} {i j k : Nat}

theorem toNat_seedOf (inside : i < s.samples.val) : (seedOf s i).toNat = s.seed.val + i := by
  have hseed := s.seed.isLt
  have hsamples := s.samples.isLt
  have hsum : s.seed.val + i < 4294967296 := by omega
  exact UInt32.toNat_ofNat_of_lt' hsum

theorem seedOf_injective (hi : i < s.samples.val) (hj : j < s.samples.val)
    (same : seedOf s i = seedOf s j) : i = j := by
  have hnat := congrArg UInt32.toNat same
  rw [toNat_seedOf hi, toNat_seedOf hj] at hnat
  exact Nat.add_left_cancel hnat

/-- Only the seed has a part in what is drawn. -/
theorem ids_sampleDraft (seed : s.seed = a.settings.seed) (i : Nat) :
    (sampleDraft { a with settings := s } i).ids = a.sampleIds i := by
  rw [sampleDraft, sampleIds, sampleIds, seedOf, seedOf, seed]

/-- Samples whose transformations succeed are all realized, however many are to be drawn. -/
theorem realizeFrom_samples (seed : s.seed = a.settings.seed)
    (succeed : ∀ i < k, ¬ Fails (a.transform i (a.sampleIds i)).result) :
    let drafts := (List.range k).map (sampleDraft { a with settings := s })
    (a.realizeFrom 0 drafts).2 = none ∧
      (a.realizeFrom 0 drafts).1.map (·.ids) = (List.range k).map a.sampleIds := by
  have hcomplete : (a.realizeFrom 0 ((List.range k).map (sampleDraft { a with settings := s }))).2 =
      none := by
    refine realizeFrom_complete_iff.mpr fun i d hd => ?_
    rw [List.getElem?_map, Option.map_eq_some_iff] at hd
    obtain ⟨i', hi', rfl⟩ := hd
    obtain ⟨hi, rfl⟩ := List.getElem?_eq_some_iff.mp hi'
    rw [List.length_range] at hi
    rw [List.getElem_range, ids_sampleDraft seed, Nat.zero_add]
    exact succeed i hi
  refine ⟨hcomplete, ?_⟩
  rw [ids_realizeFrom hcomplete, List.map_map]
  exact List.map_congr_left fun i _ => ids_sampleDraft seed i

theorem drafts_of_samples (draws : 0 < a.settings.samples.val) :
    a.drafts = (List.range a.settings.samples.val).map a.sampleDraft := by
  have hsamples : a.samples = true := decide_eq_true (Nat.ne_of_gt draws)
  rw [drafts, hsamples, if_pos rfl]

theorem pathCount_of_samples (draws : 0 < a.settings.samples.val) :
    a.run.findings.pathCount = 0 := by
  have hsamples : a.samples = true := decide_eq_true (Nat.ne_of_gt draws)
  rw [(run_of_samples hsamples).1]
  exact (a.sampleFrom_realizes .none _).2

/-- A drawing begins with the samples of any shorter drawing from the same seed, even if a later
transformation fails. -/
theorem sampleIds_prefix_run (seed : s.seed = a.settings.seed) (draws : 0 < k)
    (longer : k ≤ s.samples.val)
    (succeed : ∀ i < k, ¬ Fails (a.transform i (a.sampleIds i)).result) :
    (List.range k).map a.sampleIds <+:
      (run { a with settings := s }).findings.realizations.map (·.ids) := by
  have hmany : 0 < s.samples.val := Nat.lt_of_lt_of_le draws longer
  obtain ⟨more, hmore⟩ := Nat.exists_eq_add_of_le longer
  obtain ⟨hcomplete, hids⟩ := realizeFrom_samples seed succeed
  rw [(run_realizes _).1, drafts_of_samples hmany, realizeFrom_settings, hmore, List.range_add,
    List.map_append, realizeFrom_append hcomplete, List.map_append, hids]
  exact List.prefix_append _ _

/-- A drawing whose transformations succeed has a realization for each of its samples, and goes on in
any longer drawing from the same seed. -/
theorem run_samples (draws : 0 < a.settings.samples.val)
    (succeed : ∀ i < a.settings.samples.val, ¬ Fails (a.transform i (a.sampleIds i)).result) :
    a.run.failure = none ∧ a.run.findings.pathCount = 0 ∧
      a.run.findings.realizations.length = a.settings.samples.val ∧
      (∀ i r, a.run.findings.realizations[i]? = some r →
        r.ordinal = i ∧ r.weight = 1 / Binary64.ofNat a.settings.samples.val ∧
          r.ids = (a.tree.sample (seedOf a.settings i)).map (·.id) ∧
          (a.transform i r.ids).result = .ok r.groups) ∧
      (∀ i < a.settings.samples.val,
        (seedOf a.settings i).toNat = a.settings.seed.val + i ∧
          ∀ j < a.settings.samples.val, seedOf a.settings i = seedOf a.settings j → i = j) ∧
      ∀ s : Settings, s.seed = a.settings.seed → a.settings.samples ≤ s.samples →
        a.run.findings.realizations.map (·.ids) <+:
          (run { a with settings := s }).findings.realizations.map (·.ids) := by
  obtain ⟨hcomplete, hids⟩ := realizeFrom_samples (s := a.settings) rfl succeed
  obtain ⟨hrealizations, hfailure⟩ := a.run_realizes
  rw [drafts_of_samples draws] at hrealizations hfailure
  refine ⟨hfailure.trans hcomplete, pathCount_of_samples draws, ?length, ?each, ?seeds, ?longer⟩
  case length => rw [hrealizations, length_realizeFrom hcomplete, List.length_map, List.length_range]
  case each =>
    intro i r hr
    obtain ⟨d, hd, hordinal, hweight, hdraft, hgroups⟩ := run_completes hr
    rw [drafts_of_samples draws, List.getElem?_map, Option.map_eq_some_iff] at hd
    obtain ⟨i', hi', rfl⟩ := hd
    obtain ⟨hi, rfl⟩ := List.getElem?_eq_some_iff.mp hi'
    rw [List.getElem_range] at hweight hdraft hgroups
    exact ⟨hordinal, hweight, hdraft, hdraft ▸ hgroups⟩
  case seeds =>
    exact fun i hi => ⟨toNat_seedOf hi, fun j hj => seedOf_injective hi hj⟩
  case longer =>
    intro s seed longer
    rw [hrealizations, hids]
    exact sampleIds_prefix_run seed draws longer succeed

/-- Three samples from the largest seed, whose seeds go on behind it. -/
theorem run_samples_repeated :
    ∃ a : Analysis, a.tree = .repeated ∧ a.groups = [pointGroup (some gentleLaw)] ∧
      a.settings = ⟨3, 2147483647, 1⟩ ∧ 0 < a.settings.samples.val ∧
      (∀ i < a.settings.samples.val, ¬ Fails (a.transform i (a.sampleIds i)).result) ∧
      a.run.failure = none ∧ a.run.findings.realizations.length = 3 ∧
      (seedOf a.settings 2).toNat = 2147483649 ∧
      a.run.findings.realizations.map (·.ids) <+:
        (run { a with settings := ⟨5, 2147483647, 0⟩ }).findings.realizations.map (·.ids) := by
  let a : Analysis := ⟨.repeated, [pointGroup (some gentleLaw)], ⟨3, 2147483647, 1⟩⟩
  have hpaths : ∀ p ∈ LogicTree.repeated.paths, ∀ i < 3, ¬ Fails (a.transform i p.ids).result := by
    decide +kernel
  have succeed : ∀ i < 3, ¬ Fails (a.transform i (a.sampleIds i)).result := by
    intro i hi
    obtain ⟨_, _, _, _, p, hp, _, hids⟩ :=
      BranchSet.sample_enumerated LogicTree.populated_repeated (seedOf a.settings i)
    rw [Cursor.paths_start LogicTree.populated_repeated] at hp
    have hdrawn : p.ids = a.sampleIds i := hids
    exact hdrawn ▸ hpaths p hp i hi
  obtain ⟨hcomplete, _, hlength, _, hseeds, hlonger⟩ := run_samples (a := a) (by decide) succeed
  exact ⟨a, rfl, rfl, rfl, by decide, succeed, hcomplete, hlength, (hseeds 2 (by decide)).1,
    hlonger ⟨5, 2147483647, 0⟩ rfl (by decide)⟩

end SeismicTree.Analysis

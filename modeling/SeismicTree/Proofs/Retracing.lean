import SeismicTree.Proofs.Samples
import Mathlib.Data.List.Induction

/-!
# Retracing a path

A path keeps the choices that were made and not the sets. Its identifiers lead back over the sets
that it went through, since those of one set are told apart in a tree that is built by adding
branches. They need not be told apart in the whole tree, and a level at which nothing was chosen,
because the set is collapsed, takes up an identifier as every other level does.
-/

namespace SeismicTree

namespace BranchSet
variable {ω : Type} {s t new : BranchSet ω}

/-- A tree comes about by adding branches to sets, with nothing or with a tree behind them, and by
putting trees behind branches that are there. -/
inductive Built : BranchSet ω → Prop where
  | empty (d : Decision) : Built (ofDecision d)
  | added {s s' : BranchSet ω} {b : Branch ω} (before : Built s)
      (below : ∀ t, b.child = some t → Built t) (add : s.add b = .ok s') : Built s'
  | grown {s new : BranchSet ω} (way : List String) (before : Built s) (behind : Built new) :
      Built (put new way s)

theorem distinct_onBranch {id : String} {f : Branch ω → Branch ω} (distinct : s.Distinct)
    (same : ∀ b, (f b).id = b.id)
    (below : ∀ b ∈ s.branches, ∀ t, (f b).child = some t → t.Distinct) :
    (s.onBranch id f).Distinct := by
  cases s with
  | mk d bs =>
    obtain ⟨hids, hbelow⟩ := distinct_mk.mp distinct
    rw [onBranch_eq_map hids]
    refine distinct_mk.mpr ⟨?_, fun b' hb' t ht => ?_⟩
    · have hsame : (bs.map fun b => if b.id = id then f b else b).map (·.id) = bs.map (·.id) := by
        rw [List.map_map]
        refine List.map_congr_left fun b _ => ?_
        by_cases h : b.id = id <;> simp [h, same]
      rwa [hsame]
    · obtain ⟨b, hb, rfl⟩ := List.mem_map.mp hb'
      by_cases h : b.id = id
      · rw [if_pos h] at ht
        exact below b hb t ht
      · rw [if_neg h] at ht
        exact hbelow b hb t ht

/-- Putting a tree somewhere keeps identifiers where they are. -/
theorem distinct_put (way : List String) (behind : new.Distinct) (distinct : s.Distinct) :
    (put new way s).Distinct := by
  induction way generalizing s with
  | nil => exact behind
  | cons id way ih =>
    by_cases hway : way = []
    · subst hway
      refine distinct_onBranch distinct (fun b => rfl) fun b _ t ht => ?_
      cases ht
      exact behind
    · rw [put_cons new s id hway]
      refine distinct_onBranch distinct (fun b => rfl) fun b hb t ht => ?_
      obtain ⟨u, hu, rfl⟩ := Option.map_eq_some_iff.mp ht
      exact ih fun v hv => distinct v (sets_of_child hb hu hv)

theorem Built.distinct (h : s.Built) : s.Distinct := by
  induction h with
  | empty d => exact distinct_mk.mpr ⟨List.nodup_nil, fun b hb => nomatch hb⟩
  | @added s s' b _ _ add before below =>
    obtain ⟨hnew, rfl⟩ := add_eq_ok_iff.mp add
    cases s with
    | mk d bs =>
      obtain ⟨hids, hbelow⟩ := distinct_mk.mp before
      refine distinct_mk.mpr ⟨?_, fun b' hb' => ?_⟩
      · rw [branches_mk, List.map_append, List.map_singleton, ← List.concat_eq_append]
        exact List.Nodup.concat hnew hids
      · rcases List.mem_append.mp hb' with hold | hlast
        · exact hbelow b' hold
        · rw [List.mem_singleton.mp hlast]
          exact below
  | grown way _ _ before behind => exact distinct_put way behind before

/-- A tree can be built by adding branches exactly if the identifiers in each of its sets are
distinct. -/
theorem built_iff_distinct : s.Built ↔ s.Distinct := by
  refine ⟨Built.distinct, fun distinct => ?_⟩
  induction s using induction_branches with
  | step d bs ih =>
    obtain ⟨hids, hbelow⟩ := distinct_mk.mp distinct
    have hchildren : ∀ b ∈ bs, ∀ t, b.child = some t → t.Built :=
      fun b hb t ht => ih b hb t ht (hbelow b hb t ht)
    clear ih hbelow distinct
    -- The branches are added in order, so the induction takes the last of them off.
    induction bs using List.reverseRecOn with
    | nil => exact .empty d
    | append_singleton bs b ih =>
      rw [List.map_append, List.map_singleton, List.nodup_append] at hids
      obtain ⟨hids, _, hnew⟩ := hids
      have hbefore := ih hids fun b' hb' => hchildren b' (List.mem_append_left _ hb')
      refine hbefore.added (hchildren b (List.mem_append_right _ (List.mem_singleton_self b))) ?_
      refine add_eq_ok_iff.mpr ⟨fun hmem => ?_, rfl⟩
      exact hnew b.id hmem b.id (List.mem_singleton_self _) rfl

/-- The selection of a choice at a turn. -/
def selectionAt (x : Turn ω) (c : Choice ω) : Selection ω := ⟨x.set, c.value⟩

/-- The identifiers of choices lead back over turns: they select the set of every turn with the
value of the choice, whatever identifiers stand behind them, and the first of them select at the
first turns. -/
structure Retraces (s : BranchSet ω) (choices : List (Choice ω)) (turns : List (Turn ω)) :
    Prop where
  length : choices.length = turns.length
  all : ∀ more, (s.selections (choices.map (·.id) ++ more)).result =
    .ok (List.zipWith selectionAt turns choices)
  first : ∀ k, (s.selections ((choices.map (·.id)).take k)).result =
    .ok ((List.zipWith selectionAt turns choices).take k)

/-- Choices that have the identifiers and the values of the branches lead back over the turns. -/
theorem Course.retraces {turns : List (Turn ω)} (h : s.Course turns) (distinct : s.Distinct)
    {choice : Turn ω → Choice ω} (ids : ∀ x, (choice x).id = x.branch.id)
    (values : ∀ x, (choice x).value = x.branch.value) :
    s.Retraces (turns.map choice) turns := by
  have hids : (turns.map choice).map (·.id) = (turns.map Turn.stage).map (·.branch.id) := by
    rw [List.map_map, List.map_map]
    exact List.map_congr_left fun x _ => ids x
  have hselections : List.zipWith selectionAt turns (turns.map choice) =
      (turns.map Turn.stage).map Stage.selection := by
    rw [List.zipWith_map_right, List.zipWith_self, List.map_map]
    exact List.map_congr_left fun x _ => congrArg (Selection.mk x.set) (values x)
  refine ⟨List.length_map _, fun more => ?_, fun k => ?_⟩
  · rw [result_selections, hids, hselections, Route.follow distinct h more]
    rfl
  · have hfirst := Route.follow_take distinct h [] k
    rw [List.append_nil] at hfirst
    rw [result_selections, hids, hselections, hfirst]
    rfl

end BranchSet

namespace LogicTree

/-- The identifiers of an enumerated path lead back over the turns that the cursor stands on, and
those of a sample over the turns that were drawn. -/
theorem ids_retrace {s : LogicTree} (built : s.Built) (populated : s.Populated) :
    (∀ n p, (Cursor.next^[n] (Cursor.start s)).path? = some p →
      ∃ turns, (Cursor.next^[n] (Cursor.start s)).StandsOn s turns ∧
        s.Retraces p.choices turns) ∧
      ∀ seed, ∃ turns, s.Course turns ∧
        (∀ x ∈ turns, x.Drawn (Discrete.choose (Twister.ofSeed seed).uniform.1)) ∧
        s.Retraces (s.sample seed) turns := by
  constructor
  · intro n p hp
    obtain ⟨turns, hstands, rfl⟩ := Cursor.exists_standsOn_path populated hp
    exact ⟨turns, hstands, hstands.course.retraces built.distinct
      (fun x => x.stage.id_shown) (fun x => x.stage.value_shown)⟩
  · intro seed
    obtain ⟨turns, hcourse, hdrawn, hsample⟩ := BranchSet.exists_sampled populated seed
    refine ⟨turns, hcourse, hdrawn, ?_⟩
    rw [hsample]
    exact hcourse.retraces built.distinct (fun _ => rfl) (fun _ => rfl)

theorem built_repeated : repeated.Built := by
  refine BranchSet.built_iff_distinct.mpr ?_
  unfold BranchSet.Distinct
  decide +kernel

theorem ids_retrace_repeated :
    repeated.Built ∧ repeated.Populated ∧
      (∃ choices turns, choices.map (·.id) = ["b2", "c1", "b1"] ∧
        (Cursor.next^[2] (Cursor.start repeated)).StandsOn repeated turns ∧
        repeated.Retraces choices turns) ∧
      ∃ turns, repeated.Course turns ∧ repeated.Retraces (repeated.sample 7) turns := by
  obtain ⟨hpaths, hsamples⟩ := ids_retrace built_repeated populated_repeated
  refine ⟨built_repeated, populated_repeated, ?_, ?_⟩
  · obtain ⟨p, hp, hids⟩ : ∃ p, (Cursor.next^[2] (Cursor.start repeated)).path? = some p ∧
        p.ids = ["b2", "c1", "b1"] := ⟨_, rfl, rfl⟩
    obtain ⟨turns, hstands, hretraces⟩ := hpaths 2 p hp
    exact ⟨p.choices, turns, hids, hstands, hretraces⟩
  · obtain ⟨turns, hcourse, _, hretraces⟩ := hsamples 7
    exact ⟨turns, hcourse, hretraces⟩

end LogicTree

end SeismicTree

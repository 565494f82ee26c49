import SeismicTree.Proofs.Samples

/-!
# Choices in a row

Whatever the weights are and however the generator stands, a choice is the position of a weight, and
what is drawn later has no part in what was drawn before. Members of a list are therefore drawn as
many as are asked for, and more of them go on where fewer have ended. Only the numbers of the weights
count, not where they are found. Nothing is said about how often a member is drawn.
-/

namespace SeismicTree.Discrete

section Draws
variable {weights : List Binary64}

theorem draw_lt (nonempty : weights ≠ []) (g : Twister) : (draw weights g).1 < weights.length := by
  unfold draw
  split
  · exact List.length_pos_of_ne_nil nonempty
  · exact choose_lt nonempty g.not_one_lt_uniform

theorem length_draws (n : Nat) (g : Twister) : (draws weights n g).length = n := by
  induction n generalizing g with
  | zero => rfl
  | succ n ih => rw [draws, List.length_cons, ih]

theorem draws_lt (nonempty : weights ≠ []) (n : Nat) (g : Twister) :
    ∀ i ∈ draws weights n g, i < weights.length := by
  induction n generalizing g with
  | zero => exact fun i h => absurd h List.not_mem_nil
  | succ n ih => exact List.forall_mem_cons.mpr ⟨draw_lt nonempty g, ih _⟩

/-- Fewer choices are the first of more choices. The generator goes the same way in both. -/
theorem draws_eq_take {n m : Nat} (fewer : n ≤ m) (g : Twister) :
    draws weights n g = (draws weights m g).take n := by
  induction n generalizing m g with
  | zero => rfl
  | succ n ih =>
    obtain ⟨m, rfl⟩ := Nat.exists_eq_add_of_le' (Nat.zero_lt_of_lt fewer)
    have hrest := ih (Nat.le_of_succ_le_succ fewer) (draw weights g).2
    simp only [draws, List.take_succ_cons, hrest]

end Draws

section Sample
variable {α W : Type} [Weight W] {weight : α → W} {members : List α}

/-- The positions that are drawn among members with weights. -/
def drawn (weight : α → W) (members : List α) (n : Nat) (seed : UInt32) : List Nat :=
  positions (members.map fun a => Weight.number (weight a)) n seed

theorem drawn_lt (nonempty : members ≠ []) (n : Nat) (seed : UInt32) :
    ∀ i ∈ drawn weight members n seed, i < members.length := by
  have hweights : (members.map fun a => Weight.number (weight a)) ≠ [] := by simpa using nonempty
  have hlength : (members.map fun a => Weight.number (weight a)).length = members.length :=
    List.length_map _
  rw [← hlength]
  exact draws_lt hweights n (Twister.ofSeed seed)

/-- Where everything that is looked up is there, nothing is passed over. -/
theorem map_some_filterMap {positions : List Nat} (inside : ∀ i ∈ positions, i < members.length) :
    (positions.filterMap fun i => members[i]?).map some = positions.map fun i => members[i]? := by
  induction positions with
  | nil => rfl
  | cons i positions ih =>
    obtain ⟨hi, hpositions⟩ := List.forall_mem_cons.mp inside
    have hfound : members[i]? = some members[i] := List.getElem?_eq_getElem hi
    rw [List.filterMap_cons_some hfound, List.map_cons, List.map_cons, ih hpositions, hfound]

/-- The members of a sample are those at the positions that are drawn. -/
theorem map_some_sample (nonempty : members ≠ []) (n : Nat) (seed : UInt32) :
    (sample weight members n seed).map some =
      (drawn weight members n seed).map fun i => members[i]? :=
  map_some_filterMap (drawn_lt nonempty n seed)

theorem length_drawn (n : Nat) (seed : UInt32) : (drawn weight members n seed).length = n :=
  length_draws n (Twister.ofSeed seed)

theorem length_sample (nonempty : members ≠ []) (n : Nat) (seed : UInt32) :
    (sample weight members n seed).length = n := by
  have hmap : (sample weight members n seed).map some =
      (drawn weight members n seed).map fun i => members[i]? := map_some_sample nonempty n seed
  have hlength := congrArg List.length hmap
  rwa [List.length_map, List.length_map, length_drawn] at hlength

theorem mem_of_mem_sample {n : Nat} {seed : UInt32} {a : α}
    (h : a ∈ sample weight members n seed) : a ∈ members := by
  obtain ⟨i, _, hi⟩ := List.mem_filterMap.mp h
  exact List.mem_of_getElem? hi

/-- A sample is the beginning of any larger one from the same seed. -/
theorem sample_eq_take (nonempty : members ≠ []) {n m : Nat} (fewer : n ≤ m) (seed : UInt32) :
    sample weight members n seed = (sample weight members m seed).take n := by
  have hdrawn : drawn weight members n seed = (drawn weight members m seed).take n :=
    draws_eq_take fewer (Twister.ofSeed seed)
  refine (List.map_inj_right fun _ _ h => Option.some.inj h).mp ?_
  rw [List.map_take, map_some_sample nonempty, map_some_sample nonempty, hdrawn, List.map_take]

end Sample

/-- A sample has as many members as are asked for, those at the positions that are drawn, all of
which are positions of members. It is the beginning of any larger sample from the same seed, and
another list whose weights are the same numbers is sampled at the same positions, wherever the
numbers are found. -/
theorem sample_begins {α β V W : Type} [Weight V] [Weight W] {weight : α → V} {members : List α}
    {otherWeight : β → W} {others : List β} (nonempty : members ≠ [])
    (same : (members.map fun a => Weight.number (weight a)) =
      others.map fun b => Weight.number (otherWeight b))
    {n m : Nat} (fewer : n ≤ m) (seed : UInt32) :
    (sample weight members n seed).length = n ∧
      (∀ a ∈ sample weight members n seed, a ∈ members) ∧
      (∀ i ∈ drawn weight members n seed, i < members.length) ∧
      sample weight members n seed = (sample weight members m seed).take n ∧
      (sample weight members n seed).map some =
        (drawn weight members n seed).map (fun i => members[i]?) ∧
      (sample otherWeight others n seed).map some =
        (drawn weight members n seed).map (fun i => others[i]?) := by
  have hothers : others ≠ [] := by
    rintro rfl
    exact nonempty (List.map_eq_nil_iff.mp same)
  have hdrawn : drawn weight members n seed = drawn otherWeight others n seed :=
    congrArg (positions · n seed) same
  refine ⟨length_sample nonempty n seed, fun a => mem_of_mem_sample, drawn_lt nonempty n seed,
    sample_eq_take nonempty fewer seed, map_some_sample nonempty n seed, ?_⟩
  rw [hdrawn, map_some_sample hothers]

def plainChoices : List (String × Binary64) := [("a", 0.25), ("b", 0.5), ("c", 0.25)]

def namedChoices : List (String × NamedNumbers) :=
  [("x", ⟨[("other", 1), ("weight", 0.25)], rfl⟩), ("y", ⟨[("weight", 0.5)], rfl⟩),
    ("z", ⟨[("other", 0), ("weight", 0.25)], rfl⟩)]

theorem sample_begins_named :
    plainChoices ≠ [] ∧
      (plainChoices.map fun a => Weight.number a.2) =
        namedChoices.map (fun b => Weight.number b.2) ∧ 4 ≤ 50 ∧
      (sample (·.2) plainChoices 4 4294967295).length = 4 ∧
      sample (·.2) plainChoices 4 4294967295 = (sample (·.2) plainChoices 50 4294967295).take 4 ∧
      ∃ positions : List Nat, positions.length = 4 ∧ (∀ i ∈ positions, i < 3) ∧
        (sample (·.2) plainChoices 4 4294967295).map some =
          positions.map (fun i => plainChoices[i]?) ∧
        (sample (·.2) namedChoices 4 4294967295).map some =
          positions.map (fun i => namedChoices[i]?) := by
  have hne : plainChoices ≠ [] := by decide
  have hsame : (plainChoices.map fun a => Weight.number a.2) =
      namedChoices.map (fun b => Weight.number b.2) := rfl
  obtain ⟨hlength, _, hinside, htake, hplain, hnamed⟩ :=
    sample_begins hne hsame (by decide : 4 ≤ 50) 4294967295
  refine ⟨hne, hsame, by decide, hlength, htake, _, ?_, hinside, hplain, hnamed⟩
  exact length_drawn 4 4294967295

end SeismicTree.Discrete

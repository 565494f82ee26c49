import SeismicTree.Tree.Unfolding
import SeismicTree.Proofs.TreeLeaves
import Mathlib.Data.List.Flatten
import Mathlib.Data.List.Pairwise

/-!
# The unfolding of levels

Every set of an unfolded tree is a listed set with the later levels unfolded behind it. The rest
follows from this: what stands behind a branch depends on the branch alone, and a set comes from a
later level than the branch it stands behind. An unfolding grows by one set at the end of its last
level when the tree is extended at the leaves that the set covers; the identifiers of branches have
to tell the leaves of earlier levels from those of the last one.
-/

namespace SeismicTree

variable {ω : Type}

namespace ListedSet

/-- The identifiers of the branches that a set lists. -/
def ids (s : ListedSet ω) : List String := s.choices.map (·.id)

/-- The set with the unfolding of the later levels behind its branches. -/
def before (later : List (List (ListedSet ω))) (s : ListedSet ω) : BranchSet ω :=
  .mk s.decision (s.choices.map fun c => .mk c (BranchSet.behind c.id later))

/-- A set of a tree is a copy of the listed set, whatever stands behind its branches. -/
def Describes (s : ListedSet ω) (t : BranchSet ω) : Prop :=
  t.decision = s.decision ∧ t.branches.map (·.choice) = s.choices

theorem leafSet_eq_before (s : ListedSet ω) : s.leafSet = s.before [] := rfl

theorem describes_before (s : ListedSet ω) (later : List (List (ListedSet ω))) :
    s.Describes (s.before later) := by
  refine ⟨rfl, ?_⟩
  rw [before, BranchSet.branches_mk, List.map_map]
  exact List.map_id s.choices

theorem mem_branches_before {s : ListedSet ω} {later : List (List (ListedSet ω))} {b : Branch ω} :
    b ∈ (s.before later).branches ↔
      ∃ c ∈ s.choices, b = .mk c (BranchSet.behind c.id later) := by
  simp only [before, BranchSet.branches_mk, List.mem_map, eq_comm]

end ListedSet

namespace BranchSet

theorem behind_cons (id : String) (level : List (ListedSet ω))
    (later : List (List (ListedSet ω))) :
    behind id (level :: later) =
      match level.find? (·.reach.covers id) with
      | some s => some (s.before later)
      | none => behind id later := rfl

/-- What stands behind a branch is the first set that is meant for it, in front of the levels behind
the set's own. -/
theorem behind_eq_some {id : String} {levels : List (List (ListedSet ω))} {t : BranchSet ω}
    (h : behind id levels = some t) :
    ∃ level later s, level :: later <:+ levels ∧ s ∈ level ∧ t = s.before later ∧
      levels.flatten.find? (·.reach.covers id) = some s := by
  induction levels with
  | nil => cases h
  | cons level later ih =>
    rw [behind_cons] at h
    cases hfind : level.find? (·.reach.covers id) with
    | some s =>
      rw [hfind] at h
      cases h
      refine ⟨level, later, s, List.suffix_rfl, List.mem_of_find?_eq_some hfind, rfl, ?_⟩
      simp [hfind]
    | none =>
      rw [hfind] at h
      obtain ⟨level', later', s, hsuffix, hs, ht, hfirst⟩ := ih h
      refine ⟨level', later', s, hsuffix.trans (List.suffix_cons level later), hs, ht, ?_⟩
      simp [hfind, hfirst]

theorem behind_eq_none {id : String} {levels : List (List (ListedSet ω))}
    (h : behind id levels = none) : levels.flatten.find? (·.reach.covers id) = none := by
  induction levels with
  | nil => rfl
  | cons level later ih =>
    rw [behind_cons] at h
    cases hfind : level.find? (·.reach.covers id) with
    | some s => rw [hfind] at h; cases h
    | none =>
      rw [hfind] at h
      simp [hfind, ih h]

/-- Every set of an unfolding is a listed set in front of the levels behind its own. -/
theorem mem_sets_before {s : ListedSet ω} {later : List (List (ListedSet ω))} {u : BranchSet ω}
    (h : u ∈ (s.before later).sets) :
    u = s.before later ∨
      ∃ level' later' s', level' :: later' <:+ later ∧ s' ∈ level' ∧ u = s'.before later' := by
  obtain ⟨tree, htree⟩ : ∃ tree, s.before later = tree := ⟨_, rfl⟩
  rw [htree] at h
  induction tree using induction_branches generalizing s later with
  | step d bs ih =>
    rcases mem_sets_mk.mp h with hroot | ⟨b, hb, t, ht, hu⟩
    · exact Or.inl (hroot.trans htree.symm)
    · refine Or.inr ?_
      have hbs : b ∈ (s.before later).branches := by rw [htree]; exact hb
      obtain ⟨c, _, hbc⟩ := ListedSet.mem_branches_before.mp hbs
      have hbehind : behind c.id later = some t := by rw [← ht, hbc, Branch.child_mk]
      obtain ⟨level', later', s', hsuffix, hs', rfl, _⟩ := behind_eq_some hbehind
      rcases ih b hb _ ht hu rfl with rfl | ⟨level'', later'', s'', hsuffix', hs'', rfl⟩
      · exact ⟨level', later', s', hsuffix, hs', rfl⟩
      · refine ⟨level'', later'', s'', ?_, hs'', rfl⟩
        exact hsuffix'.trans ((List.suffix_cons level' later').trans hsuffix)

theorem ofLevels?_eq_some {levels : List (List (ListedSet ω))} {t : BranchSet ω}
    (h : ofLevels? levels = some t) :
    ∃ level later s, level :: later <:+ levels ∧ s ∈ level ∧ t = s.before later ∧
      levels.flatten.head? = some s := by
  induction levels with
  | nil => cases h
  | cons level later ih =>
    cases level with
    | nil =>
      obtain ⟨level', later', s, hsuffix, hs, ht, hfirst⟩ := ih h
      exact ⟨level', later', s, hsuffix.trans (List.suffix_cons [] later), hs, ht, hfirst⟩
    | cons s level =>
      cases h
      exact ⟨s :: level, later, s, List.suffix_rfl, List.mem_cons_self, rfl, rfl⟩

theorem mem_sets_ofLevels? {levels : List (List (ListedSet ω))} {t u : BranchSet ω}
    (h : ofLevels? levels = some t) (hu : u ∈ t.sets) :
    ∃ level later s, level :: later <:+ levels ∧ s ∈ level ∧ u = s.before later := by
  obtain ⟨level, later, s, hsuffix, hs, rfl, _⟩ := ofLevels?_eq_some h
  rcases mem_sets_before hu with rfl | ⟨level', later', s', hsuffix', hs', rfl⟩
  · exact ⟨level, later, s, hsuffix, hs, rfl⟩
  · refine ⟨level', later', s', ?_, hs', rfl⟩
    exact hsuffix'.trans ((List.suffix_cons level later).trans hsuffix)

/-- Every branch of an unfolding is a listed choice, with the unfolding of the levels behind its own
behind it. -/
theorem mem_occurrences_ofLevels? {levels : List (List (ListedSet ω))} {t : BranchSet ω}
    {b : Branch ω} (h : ofLevels? levels = some t) (hb : b ∈ t.occurrences) :
    ∃ level later s, level :: later <:+ levels ∧ s ∈ level ∧ b.choice ∈ s.choices ∧
      b.child = behind b.id later := by
  obtain ⟨u, hu, hbu⟩ := List.mem_flatMap.mp hb
  obtain ⟨level, later, s, hsuffix, hs, rfl⟩ := mem_sets_ofLevels? h hu
  obtain ⟨c, hc, rfl⟩ := ListedSet.mem_branches_before.mp hbu
  exact ⟨level, later, s, hsuffix, hs, hc, rfl⟩

end BranchSet

/-- No identifier is used twice in a list of levels, neither for branches nor for sets. -/
structure DistinctLevels (levels : List (List (ListedSet ω))) : Prop where
  branches : (levels.flatten.flatMap ListedSet.ids).Nodup
  sets : (levels.flatten.map (·.decision.id)).Nodup

/-- A tree is the unfolding of levels, said of every occurrence of a branch in it: a branch of a
level stands in front of the first set that is meant for it among all sets behind the level, and is
a leaf if there is none. All occurrences of a branch are alike, and no set stands behind a branch of
its own level. -/
structure BranchSet.Unfolds (levels : List (List (ListedSet ω))) (t : BranchSet ω) : Prop where
  root : ∃ s, levels.flatten.head? = some s ∧ s.Describes t
  listed : ∀ b ∈ t.occurrences,
    ∃ level later s, level :: later <:+ levels ∧ s ∈ level ∧ b.choice ∈ s.choices
  child : ∀ b ∈ t.occurrences, ∀ level later s, level :: later <:+ levels → s ∈ level →
    b.choice ∈ s.choices →
      Option.Rel ListedSet.Describes (later.flatten.find? (·.reach.covers b.id)) b.child
  alike : ∀ b ∈ t.occurrences, ∀ b' ∈ t.occurrences, b.id = b'.id → b = b'
  forward : ∀ b ∈ t.occurrences, ∀ u, b.child = some u → ∀ level later s,
    level :: later <:+ levels → s ∈ level → b.choice ∈ s.choices →
      ∀ s' ∈ level, u.id ≠ s'.decision.id

theorem flatten_suffix {α : Type} {later levels : List (List α)} (h : later <:+ levels) :
    later.flatten <:+ levels.flatten := by
  obtain ⟨front, rfl⟩ := h
  exact ⟨front.flatten, by simp⟩

theorem flatten_concat {α : Type} (levels : List (List α)) (current : List α) :
    (levels ++ [current]).flatten = levels.flatten ++ current := by simp

namespace DistinctLevels
variable {levels : List (List (ListedSet ω))}

theorem of_suffix (distinct : DistinctLevels levels) {later : List (List (ListedSet ω))}
    (h : later <:+ levels) : DistinctLevels later := by
  have hflat := (flatten_suffix h).sublist
  exact ⟨distinct.branches.sublist (hflat.flatMap _), distinct.sets.sublist (hflat.map _)⟩

theorem append_nil_iff : DistinctLevels (levels ++ [[]]) ↔ DistinctLevels levels := by
  have hflat : (levels ++ [[]]).flatten = levels.flatten := by simp
  constructor
  · rintro ⟨branches, sets⟩
    rw [hflat] at branches sets
    exact ⟨branches, sets⟩
  · rintro ⟨branches, sets⟩
    rw [← hflat] at branches sets
    exact ⟨branches, sets⟩

theorem nodup_ids (distinct : DistinctLevels levels) {s : ListedSet ω}
    (hs : s ∈ levels.flatten) : s.ids.Nodup :=
  (List.nodup_flatMap.mp distinct.branches).1 s hs

/-- A set is known by the identifier of one of its branches. -/
theorem eq_of_mem_ids (distinct : DistinctLevels levels) {s s' : ListedSet ω}
    (hs : s ∈ levels.flatten) (hs' : s' ∈ levels.flatten) {id : String} (h : id ∈ s.ids)
    (h' : id ∈ s'.ids) : s = s' := by
  by_contra hne
  have hsymm : Std.Symm (Function.onFun List.Disjoint (ListedSet.ids (ω := ω))) :=
    ⟨fun _ _ => List.disjoint_symm⟩
  exact (List.nodup_flatMap.mp distinct.branches).2.forall hs hs' hne h h'

/-- A level behind another one has none of its branches. -/
theorem not_mem_ids_of_later {level : List (ListedSet ω)} {later : List (List (ListedSet ω))}
    (distinct : DistinctLevels (level :: later)) {s s' : ListedSet ω} (hs : s ∈ level)
    (hs' : s' ∈ later.flatten) {id : String} (h : id ∈ s.ids) : id ∉ s'.ids := by
  intro h'
  have hnodup := distinct.branches
  rw [List.flatten_cons, List.flatMap_append] at hnodup
  exact List.disjoint_of_nodup_append hnodup (List.mem_flatMap.mpr ⟨s, hs, h⟩)
    (List.mem_flatMap.mpr ⟨s', hs', h'⟩)

theorem not_later_of_mem_ids (distinct : DistinctLevels levels)
    {level level' : List (ListedSet ω)} {later later' : List (List (ListedSet ω))}
    {s s' : ListedSet ω} (hsuffix : level :: later <:+ levels)
    (hsuffix' : level' :: later' <:+ level :: later) (hs : s ∈ level) (hs' : s' ∈ level')
    {id : String} (h : id ∈ s.ids) (h' : id ∈ s'.ids) : later' = later := by
  rcases List.suffix_cons_iff.mp hsuffix' with heq | hlater
  · exact (List.cons.inj heq).2
  · have hmem : s' ∈ later.flatten :=
      (flatten_suffix hlater).subset (List.mem_append_left _ hs')
    exact absurd h' (not_mem_ids_of_later (distinct.of_suffix hsuffix) hs hmem h)

/-- The levels behind a set are known by the identifier of one of its branches. -/
theorem later_eq_of_mem_ids (distinct : DistinctLevels levels)
    {level level' : List (ListedSet ω)} {later later' : List (List (ListedSet ω))}
    {s s' : ListedSet ω} (hsuffix : level :: later <:+ levels)
    (hsuffix' : level' :: later' <:+ levels) (hs : s ∈ level) (hs' : s' ∈ level')
    {id : String} (h : id ∈ s.ids) (h' : id ∈ s'.ids) : later' = later := by
  rcases List.suffix_or_suffix_of_suffix hsuffix hsuffix' with hin | hin
  · exact (distinct.not_later_of_mem_ids hsuffix' hin hs' hs h' h).symm
  · exact distinct.not_later_of_mem_ids hsuffix hin hs hs' h h'

end DistinctLevels

namespace BranchSet

theorem behind_rel (id : String) (levels : List (List (ListedSet ω))) :
    Option.Rel ListedSet.Describes (levels.flatten.find? (·.reach.covers id))
      (behind id levels) := by
  cases h : behind id levels with
  | none =>
    rw [behind_eq_none h]
    exact Option.Rel.none
  | some t =>
    obtain ⟨level, later, s, _, _, rfl, hfirst⟩ := behind_eq_some h
    rw [hfirst]
    exact Option.Rel.some (s.describes_before later)

theorem ofLevels?_unfolds {levels : List (List (ListedSet ω))} {t : BranchSet ω}
    (distinct : DistinctLevels levels) (h : ofLevels? levels = some t) : t.Unfolds levels := by
  have hknown : ∀ b ∈ t.occurrences, ∀ level later s, level :: later <:+ levels → s ∈ level →
      b.id ∈ s.ids → b.choice ∈ s.choices ∧ b.child = behind b.id later := by
    intro b hb level later s hsuffix hs hid
    obtain ⟨level', later', s', hsuffix', hs', hc', hchild⟩ := mem_occurrences_ofLevels? h hb
    have hid' : b.id ∈ s'.ids := List.mem_map_of_mem hc'
    have hmem := (flatten_suffix hsuffix).subset (List.mem_append_left _ hs)
    have hmem' := (flatten_suffix hsuffix').subset (List.mem_append_left _ hs')
    rw [distinct.eq_of_mem_ids hmem hmem' hid hid',
      ← distinct.later_eq_of_mem_ids hsuffix hsuffix' hs hs' hid hid']
    exact ⟨hc', hchild⟩
  refine ⟨?root, ?listed, ?child, ?alike, ?forward⟩
  case root =>
    obtain ⟨level, later, s, _, _, rfl, hfirst⟩ := ofLevels?_eq_some h
    exact ⟨s, hfirst, s.describes_before later⟩
  case listed =>
    intro b hb
    obtain ⟨level, later, s, hsuffix, hs, hc, _⟩ := mem_occurrences_ofLevels? h hb
    exact ⟨level, later, s, hsuffix, hs, hc⟩
  case child =>
    intro b hb level later s hsuffix hs hc
    rw [(hknown b hb level later s hsuffix hs (List.mem_map_of_mem hc)).2]
    exact behind_rel b.id later
  case alike =>
    intro b hb b' hb' hid
    obtain ⟨level, later, s, hsuffix, hs, hc, hchild⟩ := mem_occurrences_ofLevels? h hb
    have hids : b.id ∈ s.ids := List.mem_map_of_mem hc
    obtain ⟨hc', hchild'⟩ := hknown b' hb' level later s hsuffix hs (hid ▸ hids)
    have hmem := (flatten_suffix hsuffix).subset (List.mem_append_left _ hs)
    refine Branch.eq_of_choice_child ?_ ?_
    · exact List.inj_on_of_nodup_map (distinct.nodup_ids hmem) hc hc' hid
    · rw [hchild, hchild', hid]
  case forward =>
    intro b hb u hu level later s hsuffix hs hc s' hs' hid
    have hchild := (hknown b hb level later s hsuffix hs (List.mem_map_of_mem hc)).2
    obtain ⟨level'', later'', s'', hsuffix'', hs'', rfl, _⟩ := behind_eq_some (hchild ▸ hu)
    have hnodup := (distinct.of_suffix hsuffix).sets
    rw [List.flatten_cons, List.map_append] at hnodup
    have hmem := (flatten_suffix hsuffix'').subset (List.mem_append_left _ hs'')
    exact List.disjoint_of_nodup_append hnodup (List.mem_map_of_mem hs')
      (hid ▸ List.mem_map_of_mem hmem)

end BranchSet

end SeismicTree

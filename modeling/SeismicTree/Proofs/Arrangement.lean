import SeismicTree.Source.Model
import Mathlib.Data.List.Induction

/-!
# The groups of a model

A model lists groups and single sources. Sources join groups while the list is read, so which group
a source is in depends on what stood before it. Here the groups are told from the whole list. The
first part of a region is always one that opens a group, and it takes all single sources of its
region behind it; a group whose region came up before keeps to the sources it was listed with.
-/

namespace SeismicTree.SourceModel

inductive Part where
  | group (region name : String) (members : List Source)
  | single (source : Source)

namespace Part

def sources : Part → List Source
  | group _ _ members => members
  | single source => [source]

end Part

/-- The sources of a region that are not listed in groups. -/
def singles (region : String) : List Part → List Source
  | [] => []
  | .group .. :: rest => singles region rest
  | .single source :: rest =>
    if source.region = region then source :: singles region rest else singles region rest

/-- The groups that some parts open, where groups of the `earlier` regions are already there. -/
def arrange (earlier : List String) : List Part → List SourceGroup
  | [] => []
  | .group region name members :: rest =>
    let followers := if region ∈ earlier then [] else singles region rest
    { region, name, sources := members ++ followers, changes := 0 } ::
      arrange (region :: earlier) rest
  | .single source :: rest =>
    if source.region ∈ earlier then arrange earlier rest
    else
      { region := source.region, name := "", sources := source :: singles source.region rest
        changes := 0 } :: arrange (source.region :: earlier) rest

theorem singles_append_single (region : String) (parts : List Part) (s : Source) :
    singles region (parts ++ [.single s]) =
      if s.region = region then singles region parts ++ [s] else singles region parts := by
  induction parts with
  | nil => rfl
  | cons part parts ih =>
    cases part with
    | group r name members => exact ih
    | single t =>
      rw [List.cons_append, singles, singles, ih]
      split <;> split <;> rfl

theorem singles_append_group (region r name : String) (members : List Source)
    (parts : List Part) :
    singles region (parts ++ [.group r name members]) = singles region parts := by
  induction parts with
  | nil => rfl
  | cons part parts ih =>
    cases part with
    | group r' name' members' => exact ih
    | single t => rw [List.cons_append, singles, singles, ih]

/-- One more single source joins the first group of its region, unless an earlier one takes it. -/
theorem arrange_append_single (earlier : List String) (parts : List Part) (s : Source) :
    arrange earlier (parts ++ [.single s]) =
      if s.region ∈ earlier then arrange earlier parts else join s (arrange earlier parts) := by
  induction parts generalizing earlier with
  | nil => rfl
  | cons part parts ih =>
    cases part with
    | group r name members =>
      rw [List.cons_append, arrange, arrange, ih, singles_append_single]
      by_cases hs : s.region ∈ earlier
      · have hrest : s.region ∈ r :: earlier := List.mem_cons_of_mem r hs
        rw [if_pos hs, if_pos hrest]
        by_cases hr : r ∈ earlier
        · rw [if_pos hr, if_pos hr]
        · have hne : s.region ≠ r := fun h => hr (h ▸ hs)
          rw [if_neg hr, if_neg hr, if_neg hne]
      · rw [if_neg hs]
        by_cases hr : s.region = r
        · subst hr
          rw [join, if_pos rfl, if_pos List.mem_cons_self, if_neg hs, if_neg hs, if_pos rfl,
            List.append_assoc]
        · have hrest : s.region ∉ r :: earlier := fun h => (List.mem_cons.mp h).elim hr hs
          rw [join, if_neg (Ne.symm hr), if_neg hrest, if_neg hr]
    | single t =>
      rw [List.cons_append, arrange, arrange]
      by_cases ht : t.region ∈ earlier
      · rw [if_pos ht, if_pos ht, ih]
      · rw [if_neg ht, if_neg ht, ih, singles_append_single]
        by_cases hs : s.region ∈ earlier
        · have hrest : s.region ∈ t.region :: earlier := List.mem_cons_of_mem _ hs
          have hne : s.region ≠ t.region := fun h => ht (h ▸ hs)
          rw [if_pos hs, if_pos hrest, if_neg hne]
        · rw [if_neg hs]
          by_cases hr : s.region = t.region
          · have hrest : s.region ∈ t.region :: earlier := hr ▸ List.mem_cons_self
            rw [join, if_pos hr.symm, if_pos hr, if_pos hrest, List.cons_append]
          · have hrest : s.region ∉ t.region :: earlier := fun h => (List.mem_cons.mp h).elim hr hs
            rw [join, if_neg (Ne.symm hr), if_neg hr, if_neg hrest]

/-- One more group stands behind the others. -/
theorem arrange_append_group (earlier : List String) (parts : List Part) (r name : String)
    (members : List Source) :
    arrange earlier (parts ++ [.group r name members]) =
      arrange earlier parts ++ [{ region := r, name, sources := members, changes := 0 }] := by
  induction parts generalizing earlier with
  | nil => simp [arrange, singles]
  | cons part parts ih =>
    cases part with
    | group r' name' members' =>
      rw [List.cons_append, arrange, arrange, ih, singles_append_group, List.cons_append]
    | single t =>
      rw [List.cons_append, arrange, arrange, ih, ih, singles_append_group]
      split
      · rfl
      · rw [List.cons_append]

theorem join_perm (s : Source) (groups : List SourceGroup) :
    ((join s groups).flatMap (·.sources)).Perm (groups.flatMap (·.sources) ++ [s]) := by
  induction groups with
  | nil => exact .refl _
  | cons g groups ih =>
    rw [join]
    split
    · simp only [List.flatMap_cons, List.append_assoc]
      exact .append_left _ List.perm_append_comm
    · simp only [List.flatMap_cons, List.append_assoc]
      exact .append_left _ ih

/-- No source is lost, and none is in two groups or twice in one. -/
theorem arrange_perm (parts : List Part) :
    ((arrange [] parts).flatMap (·.sources)).Perm (parts.flatMap Part.sources) := by
  induction parts using List.reverseRecOn with
  | nil => exact .refl _
  | append_singleton parts part ih =>
    cases part with
    | group r name members =>
      rw [arrange_append_group, List.flatMap_append, List.flatMap_append]
      exact ih.append (.refl _)
    | single s =>
      rw [arrange_append_single, if_neg List.not_mem_nil, List.flatMap_append]
      exact (join_perm s _).trans (ih.append (.refl _))

theorem singles_sublist (region : String) (parts : List Part) :
    (singles region parts).Sublist (parts.flatMap Part.sources) := by
  induction parts with
  | nil => exact .slnil
  | cons part parts ih =>
    rw [List.flatMap_cons]
    cases part with
    | group r name members => exact ih.trans (List.sublist_append_right _ _)
    | single s =>
      rw [singles]
      split
      · exact ih.cons_cons s
      · exact ih.trans (List.sublist_append_right _ _)

/-- The sources of each group are in the order in which they are listed. -/
theorem arrange_sublist (earlier : List String) (parts : List Part) :
    ∀ g ∈ arrange earlier parts, g.sources.Sublist (parts.flatMap Part.sources) := by
  induction parts generalizing earlier with
  | nil => exact fun g hg => absurd hg List.not_mem_nil
  | cons part parts ih =>
    have hrest (regions : List String) : ∀ g ∈ arrange regions parts,
        g.sources.Sublist ((part :: parts).flatMap Part.sources) := fun g hg =>
      (ih regions g hg).trans (List.sublist_append_right _ _)
    cases part with
    | group r name members =>
      refine List.forall_mem_cons.mpr ⟨?_, hrest _⟩
      refine (List.Sublist.refl members).append ?_
      split
      · exact List.nil_sublist _
      · exact singles_sublist r parts
    | single s =>
      rw [arrange]
      split
      · exact hrest _
      · exact List.forall_mem_cons.mpr ⟨(singles_sublist s.region parts).cons_cons s, hrest _⟩

end SeismicTree.SourceModel

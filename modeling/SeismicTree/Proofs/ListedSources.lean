import SeismicTree.Proofs.SourceReading
import SeismicTree.Proofs.Tokens
import SeismicTree.Tree.Applicability

/-!
# Sources selected by a list of ids

A branch set with nothing but a list of ids applies to the sources whose id is a token of the list.
Ids are not taken apart where sources are read, so any text that is not empty may be one. If ids of
a model are listed with blanks between them, the set applies to the sources that the list means
exactly if no id of the list has a blank in it: a source with another id is passed over, and so may
be taken a source whose id is a token of it. No way of writing such ids into a list is described.
-/

namespace SeismicTree

namespace Decision
variable {d : Decision}

/-- The test of a list of ids alone never fails. -/
theorem applies_of_only_ids {list : String} (only : d.filters.entries = [("applyToSources", list)])
    (s : Source) : d.applies s = .ok (decide (s.id ∈ Text.tokens list)) := by
  have hpasses : d.passes "applyToSources" list s = .ok (decide (s.id ∈ Text.tokens list)) := by
    simp [passes]
  rw [applies, only, passesAll, hpasses]
  by_cases h : s.id ∈ Text.tokens list
  · simp only [h, decide_true]
    rfl
  · simp only [h, decide_false]
    rfl

/-- The set applies to the sources of the groups whose id is one of these, and to no other. -/
def SelectsIds (d : Decision) (groups : List SourceGroup) (ids : List String) : Prop :=
  ∀ g ∈ groups, ∀ s ∈ g.sources, d.applies s = .ok (decide (s.id ∈ ids))

end Decision

namespace SourceModel

def HasId (groups : List SourceGroup) (id : String) : Prop :=
  ∃ g ∈ groups, ∃ s ∈ g.sources, s.id = id

instance (groups : List SourceGroup) (id : String) : Decidable (HasId groups id) :=
  inferInstanceAs (Decidable (∃ g ∈ groups, _))

/-- No source of a model that was read is without an id. -/
theorem ne_empty_of_hasId {files : Files} {path : String} {groups : List SourceGroup}
    (h : (read files path).result = .ok groups) {id : String} (hid : HasId groups id) :
    id ≠ "" := by
  obtain ⟨g, hg, s, hs, rfl⟩ := hid
  obtain ⟨e, region, used, body, hbody, hs⟩ := read_constructed files path groups h g hg s hs
  exact ((construct_eq_ok hbody).mp hs).1.named

/-- A set that lists ids of a model applies to the sources whose id is a token of one of these ids,
which are the listed sources exactly if no listed id has a blank in it. -/
theorem applies_listed_iff {files : Files} {path : String} {groups : List SourceGroup}
    (h : (read files path).result = .ok groups) {ids : List String}
    (hids : ∀ id ∈ ids, HasId groups id) {list : String} (hlist : Text.Lists list.toList ids)
    {d : Decision} (only : d.filters.entries = [("applyToSources", list)]) :
    d.SelectsIds groups (ids.flatMap Text.tokens) ∧
      (d.SelectsIds groups ids ↔ ∀ id ∈ ids, ∀ c ∈ id.toList, Text.isBlank c = false) := by
  have happlies : ∀ s, d.applies s = .ok (decide (s.id ∈ ids.flatMap Text.tokens)) := by
    intro s
    rw [Decision.applies_of_only_ids only, hlist.tokens_eq]
  refine ⟨fun g _ s _ => happlies s, ?_, ?_⟩
  · intro selects id hid
    obtain ⟨g, hg, s, hs, rfl⟩ := hids id hid
    have hsame := (happlies s).symm.trans (selects g hg s hs)
    rw [Except.ok.injEq, decide_eq_decide] at hsame
    obtain ⟨other, _, htoken⟩ := List.mem_flatMap.mp (hsame.mpr hid)
    exact (Text.solid_of_mem_tokens htoken).2
  · intro hsolid g _ s _
    have hsame : ids.flatMap Text.tokens = ids := by
      have hself : ∀ id ∈ ids, Text.tokens id = [id] := fun id hid =>
        Text.tokens_of_solid ⟨ne_empty_of_hasId h (hids id hid), hsolid id hid⟩
      rw [List.flatMap_congr hself, List.flatMap_singleton']
    rw [happlies, hsame]

def incrementFor (list : String) : Decision where
  uncertainty := .bGRRelative
  id := "bs"
  filters := Filters.ofList [("applyToSources", list)]
  collapsed := false

/-- A model with an id that is made of the id of another source and more. -/
def spacedModel : Files := modelOf
  [pointNode 2 "p 1" "shield", pointNode 9 "p" "shield", pointNode 16 "p2" "shield"]

/-- The source of the one id that is listed is passed over, and a source with another id is not. -/
theorem exists_listed_source_passed_over :
    ∃ groups, (read spacedModel "model.xml").result = .ok groups ∧
      (∀ id ∈ ["p 1"], HasId groups id) ∧ Text.Lists "p 1".toList ["p 1"] ∧
      (incrementFor "p 1").filters.entries = [("applyToSources", "p 1")] ∧
      ¬ (incrementFor "p 1").SelectsIds groups ["p 1"] ∧
      (∃ g ∈ groups, ∃ s ∈ g.sources, s.id = "p 1" ∧ (incrementFor "p 1").applies s = .ok false) ∧
      ∃ g ∈ groups, ∃ s ∈ g.sources, s.id = "p" ∧ (incrementFor "p 1").applies s = .ok true := by
  have hread : (read spacedModel "model.xml").result.toOption.map
      (fun groups => decide (HasId groups "p 1" ∧ HasId groups "p")) = some true := by
    decide +kernel
  obtain ⟨groups, hok, hids⟩ := exists_of_toOption_map hread
  obtain ⟨⟨g, hg, s, hs, hid⟩, ⟨g', hg', s', hs', hid'⟩⟩ := of_decide_eq_true hids
  have honly : (incrementFor "p 1").filters.entries = [("applyToSources", "p 1")] := rfl
  have hblank : Text.Blank [] := by decide
  have hwhole : Text.Lists "p 1".toList ["p 1"] := by
    simpa using Text.Lists.last "p 1" hblank hblank
  have hparts : Text.Lists "p 1".toList ["p", "1"] := by
    have hspace : Text.isBlank ' ' = true := by decide
    simpa using Text.Lists.cons "p" hblank hspace (Text.Lists.last "1" hblank hblank)
  have hfirst : Text.tokens "p" = ["p"] := Text.tokens_of_solid (by decide +kernel)
  have hsecond : Text.tokens "1" = ["1"] := Text.tokens_of_solid (by decide +kernel)
  have htokens : Text.tokens "p 1" = ["p", "1"] := by
    rw [hparts.tokens_eq, List.flatMap_cons, List.flatMap_singleton, hfirst, hsecond]
    rfl
  have hover : (incrementFor "p 1").applies s = .ok false := by
    rw [Decision.applies_of_only_ids honly, htokens, hid]
    rfl
  have htaken : (incrementFor "p 1").applies s' = .ok true := by
    rw [Decision.applies_of_only_ids honly, htokens, hid']
    rfl
  refine ⟨groups, hok, List.forall_mem_singleton.mpr ⟨g, hg, s, hs, hid⟩,
    hwhole, honly, fun selects => ?_, ⟨g, hg, s, hs, hid, hover⟩,
    g', hg', s', hs', hid', htaken⟩
  have htrue := selects g hg s hs
  rw [hover, hid] at htrue
  cases htrue

/-- Two ids of three are selected from a list with several blanks between them. -/
theorem applies_listed_iff_two :
    ∃ groups, (read spacedModel "model.xml").result = .ok groups ∧
      HasId groups "p 1" ∧ (∀ id ∈ ["p2", "p"], HasId groups id) ∧
      Text.Lists " p2 \n p".toList ["p2", "p"] ∧
      (incrementFor " p2 \n p").SelectsIds groups ["p2", "p"] := by
  have hread : (read spacedModel "model.xml").result.toOption.map
      (fun groups => decide (HasId groups "p 1" ∧ HasId groups "p2" ∧ HasId groups "p")) =
        some true := by
    decide +kernel
  obtain ⟨groups, hok, hids⟩ := exists_of_toOption_map hread
  obtain ⟨hspaced, htwo, hone⟩ := of_decide_eq_true hids
  have hlist : Text.Lists " p2 \n p".toList ["p2", "p"] := by
    have hspace : Text.Blank [' '] ∧ Text.isBlank ' ' = true := by decide
    have hbreak : Text.Blank ['\n', ' '] ∧ Text.Blank [] := by decide
    simpa using Text.Lists.cons "p2" hspace.1 hspace.2 (.last "p" hbreak.1 hbreak.2)
  have hboth : ∀ id ∈ ["p2", "p"], HasId groups id := by simp [htwo, hone]
  have hsolid : ∀ id ∈ ["p2", "p"], Text.Solid id := by decide +kernel
  have hselects := (applies_listed_iff hok hboth hlist (d := incrementFor " p2 \n p") rfl).2
  exact ⟨groups, hok, hspaced, hboth, hlist, hselects.mpr fun id hid => (hsolid id hid).2⟩

end SourceModel

end SeismicTree

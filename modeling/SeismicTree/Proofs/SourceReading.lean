import SeismicTree.Proofs.Arrangement
import SeismicTree.Proofs.Results
import Mathlib.Data.List.Forall2
import Mathlib.Data.List.Nodup

/-!
# The sources of a model

A model that is read has one source for each of its source elements, described by the element and by
the group around it, and each source is in the group in which its place among the elements puts it.
Elements of other names have no part in this, wherever they stand. Every source was constructed, so
what holds of each source that can be constructed holds of all sources of all groups.
-/

namespace SeismicTree.SourceModel

def isSource (e : Element) : Bool := (bodyReader? e.name).isSome

/-- The element of a model is not passed over. -/
def counts (e : Element) : Bool := e.name == "sourceGroup" || isSource e

/-- The element describes the source, with the region of the group around it. -/
structure Describes (region : String) (e : Element) (s : Source) : Prop where
  id : s.id = e.attributeText "id"
  name : s.name = e.attributeText "name"
  region : s.region = regionOf e region
  body : ∃ reader, bodyReader? e.name = some reader ∧ reader e = .ok s.body
  mfd : mfd? e = .ok s.mfd
  scalingRate : s.scalingRate = 1
  named : s.id ≠ ""
  checked : Source.checkBody s.id s.body = .ok ()

theorem Describes.isSource {region : String} {e : Element} {s : Source}
    (h : Describes region e s) : isSource e = true := by
  obtain ⟨reader, hreader, _⟩ := h.body
  rw [SourceModel.isSource, hreader]
  rfl

/-- The element is that of the part of a model. -/
def Part.Of (e : Element) : Part → Prop
  | .group region name members =>
    e.name = "sourceGroup" ∧ region = e.attributeText "tectonicRegion" ∧
      name = e.attributeText "name" ∧
      List.Forall₂ (Describes region) (e.elements.filter isSource) members
  | .single source => Describes "" e source

/-- The source was constructed from some element. -/
def Constructed (s : Source) : Prop :=
  ∃ e region used body, bodyReader? e.name = some body ∧ construct e region used body = .ok s

theorem make_eq_ok {id name region : String} {mfd : Option Mfd} {body : SourceBody}
    {s : Source} :
    Source.make id name region mfd body = .ok s ↔
      id ≠ "" ∧ Source.checkBody id body = .ok () ∧
        s = { id, name, region, mfd, scalingRate := 1, body } := by
  rw [Source.make, check_eq_ok, bind_eq_ok]
  refine and_congr_right fun _ => ?_
  constructor
  · rintro ⟨_, hcheck, h⟩
    cases h
    exact ⟨hcheck, rfl⟩
  · rintro ⟨hcheck, rfl⟩
    exact ⟨_, hcheck, rfl⟩

/-- An element is constructed into what it describes, unless the id is already in use. -/
theorem construct_eq_ok {e : Element} {region : String} {used : List String}
    {reader : Element → Except Failure SourceBody} {s : Source}
    (hreader : bodyReader? e.name = some reader) :
    construct e region used reader = .ok s ↔ Describes region e s ∧ s.id ∉ used := by
  simp only [construct, bind_eq_ok, check_eq_ok, make_eq_ok, List.contains_iff_mem]
  constructor
  · rintro ⟨b, hb, mfd, hmfd, _, ⟨hid, hcheck, rfl⟩, hused, h⟩
    cases h
    exact ⟨⟨rfl, rfl, rfl, ⟨reader, hreader, hb⟩, hmfd, rfl, hid, hcheck⟩, hused⟩
  · rintro ⟨described, hused⟩
    obtain ⟨reader', hreader', hb⟩ := described.body
    cases hreader.symm.trans hreader'
    obtain ⟨id, name, region', mfd, rate, b⟩ := s
    obtain ⟨rfl, rfl, rfl, _, hmfd, rfl, hid, hcheck⟩ := described
    exact ⟨b, hb, mfd, hmfd, _, ⟨hid, hcheck, rfl⟩, hused, rfl⟩

theorem Describes.constructed {region : String} {e : Element} {s : Source}
    (h : Describes region e s) : Constructed s := by
  obtain ⟨reader, hreader, _⟩ := h.body
  exact ⟨e, region, [], reader, hreader, (construct_eq_ok hreader).mpr ⟨h, List.not_mem_nil⟩⟩

section Reading
variable {file region : String} {used : List String}

theorem readSource_eq_ok {e : Element} {found : Option Source}
    (h : (readSource file region used e).result = .ok found) :
    (found = none ∧ isSource e = false) ∨
      ∃ s, found = some s ∧ Describes region e s ∧ s.id ∉ used := by
  rw [readSource] at h
  cases hreader : bodyReader? e.name with
  | none =>
    rw [hreader] at h
    cases h
    exact .inl ⟨rfl, by rw [isSource, hreader]; rfl⟩
  | some reader =>
    rw [hreader] at h
    simp only [Logged.result_map, Logged.result_liftM] at h
    obtain ⟨s, hs, rfl⟩ := map_eq_ok.mp h
    exact .inr ⟨s, rfl, (construct_eq_ok hreader).mp (mapError_eq_ok.mp hs)⟩

/-- A source is read from an element that describes it, unless its id is already in use. -/
theorem readSource_eq_ok_some {e : Element} {s : Source} :
    (readSource file region used e).result = .ok (some s) ↔
      Describes region e s ∧ s.id ∉ used := by
  constructor
  · intro h
    rcases readSource_eq_ok h with ⟨hnone, _⟩ | ⟨t, ht, hread⟩
    · cases hnone
    · cases ht
      exact hread
  · rintro ⟨described, hnew⟩
    obtain ⟨reader, hreader, _⟩ := described.body
    have hconstruct := (construct_eq_ok hreader).mpr ⟨described, hnew⟩
    rw [readSource, hreader]
    simp only [Logged.result_map, Logged.result_liftM]
    exact map_eq_ok.mpr ⟨s, mapError_eq_ok.mpr hconstruct, rfl⟩

/-- The members of a group are the sources of its source elements, and their ids are new. -/
theorem readMembers_eq_ok {es : List Element} {members : List Source} {used' : List String}
    (h : (readMembers file region used es).result = .ok (members, used')) :
    List.Forall₂ (Describes region) (es.filter isSource) members ∧
      used' = used ++ members.map (·.id) ∧ (used.Nodup → used'.Nodup) := by
  induction es generalizing used members with
  | nil =>
    cases h
    exact ⟨.nil, (List.append_nil _).symm, id⟩
  | cons e es ih =>
    rw [readMembers, Logged.result_bind] at h
    obtain ⟨found, hfound, h⟩ := bind_eq_ok.mp h
    rcases readSource_eq_ok hfound with ⟨rfl, hother⟩ | ⟨s, rfl, described, hnew⟩
    · rw [List.filter_cons, hother]
      exact ih h
    · simp only [Logged.result_bind] at h
      obtain ⟨⟨rest, last⟩, hrest, h⟩ := bind_eq_ok.mp h
      cases h
      obtain ⟨hall, hused, hnodup⟩ := ih hrest
      rw [List.filter_cons, described.isSource]
      refine ⟨.cons described hall, ?_, fun hold => hnodup ?_⟩
      · rw [hused, List.append_assoc]
        rfl
      · exact hold.append (List.nodup_singleton _) (List.disjoint_singleton.mpr hnew)

end Reading

/-- The progress of reading a model is where its parts so far lead to. -/
structure Progress.Follows (p : Progress) (parts : List Part) : Prop where
  groups : p.groups = arrange [] parts
  used : p.used = (parts.flatMap Part.sources).map (·.id)
  distinct : p.used.Nodup

theorem Progress.follows_start : Progress.Follows { groups := [], used := [] } [] :=
  ⟨rfl, rfl, List.nodup_nil⟩

/-- An element is passed over or adds its part. -/
theorem readEntry_follows {file : String} {p p' : Progress} {parts : List Part} {e : Element}
    (before : p.Follows parts) (h : (readEntry file p e).result = .ok p') :
    (counts e = false ∧ p' = p) ∨
      ∃ part, counts e = true ∧ Part.Of e part ∧ p'.Follows (parts ++ [part]) := by
  rw [readEntry] at h
  split at h
  · rename_i hgroup
    rw [Logged.result_bind] at h
    obtain ⟨⟨members, used⟩, hmembers, h⟩ := bind_eq_ok.mp h
    cases h
    obtain ⟨hall, hused, hnodup⟩ := readMembers_eq_ok hmembers
    refine .inr ⟨.group _ (e.attributeText "name") members, ?_, ⟨hgroup, rfl, rfl, hall⟩, ?_⟩
    · simp [counts, hgroup]
    · refine ⟨?_, ?_, hnodup before.distinct⟩
      · rw [arrange_append_group, ← before.groups]
      · rw [hused, before.used, List.flatMap_append, List.map_append]
        simp [Part.sources]
  · rename_i hgroup
    rw [Logged.result_bind] at h
    obtain ⟨found, hfound, h⟩ := bind_eq_ok.mp h
    rcases readSource_eq_ok hfound with ⟨rfl, hother⟩ | ⟨s, rfl, described, hnew⟩
    · cases h
      exact .inl ⟨by simp [counts, hgroup, hother], rfl⟩
    · cases h
      refine .inr ⟨.single s, by simp [counts, described.isSource], described, ?_, ?_, ?_⟩
      · rw [arrange_append_single, if_neg List.not_mem_nil, ← before.groups]
      · rw [before.used, List.flatMap_append, List.map_append]
        rfl
      · exact before.distinct.append (List.nodup_singleton _) (List.disjoint_singleton.mpr hnew)

/-- A run over elements adds one part for each of them that is not passed over. -/
theorem foldlM_readEntry_follows {file : String} {es : List Element} {p p' : Progress}
    {before : List Part} (hp : p.Follows before)
    (h : (es.foldlM (readEntry file) p).result = .ok p') :
    ∃ parts, List.Forall₂ Part.Of (es.filter counts) parts ∧ p'.Follows (before ++ parts) := by
  induction es generalizing p before with
  | nil =>
    cases h
    exact ⟨[], .nil, by rwa [List.append_nil]⟩
  | cons e es ih =>
    rw [List.foldlM_cons, Logged.result_bind] at h
    obtain ⟨next, hnext, hrest⟩ := bind_eq_ok.mp h
    rcases readEntry_follows hp hnext with ⟨hover, rfl⟩ | ⟨part, hcounts, hpart, hfollows⟩
    · rw [List.filter_cons, hover]
      exact ih hp hrest
    · obtain ⟨parts, hparts, hlast⟩ := ih hfollows hrest
      rw [List.filter_cons, hcounts]
      exact ⟨part :: parts, .cons hpart hparts, by rwa [List.append_cons]⟩

theorem read_eq_ok {files : Files} {path : String} {groups : List SourceGroup}
    (h : (read files path).result = .ok groups) :
    ∃ root model parts p, (files.openExisting .missingInput path).result = .ok root ∧
      modelElement path root = .ok model ∧
      List.Forall₂ Part.Of (model.elements.filter counts) parts ∧ Progress.Follows p parts ∧
      groups = p.groups := by
  rw [read, Logged.result_timed, Logged.result_bind] at h
  obtain ⟨root, hroot, h⟩ := bind_eq_ok.mp h
  rw [readElement, Logged.result_bind] at h
  obtain ⟨model, hmodel, h⟩ := bind_eq_ok.mp h
  rw [Logged.result_bind] at h
  obtain ⟨p, hp, h⟩ := bind_eq_ok.mp h
  cases h
  obtain ⟨parts, hparts, hfollows⟩ := foldlM_readEntry_follows Progress.follows_start hp
  exact ⟨root, model, parts, p, hroot, hmodel, hparts, hfollows, rfl⟩

/-- A property of the elements of one list is one of those of another, if it is so for each pair. -/
theorem forall_mem_iff_of_forall₂ {α β : Type} {R : α → β → Prop} {P : α → Prop} {Q : β → Prop}
    {as : List α} {bs : List β} (h : List.Forall₂ R as bs) (hpair : ∀ a b, R a b → (P a ↔ Q b)) :
    (∀ a ∈ as, P a) ↔ ∀ b ∈ bs, Q b := by
  induction h with
  | nil => simp
  | cons hab _ ih => rw [List.forall_mem_cons, List.forall_mem_cons, hpair _ _ hab, ih]

theorem forall_mem_of_forall₂ {α β : Type} {R : α → β → Prop} {Q : β → Prop} {as : List α}
    {bs : List β} (h : List.Forall₂ R as bs) (hpair : ∀ a b, R a b → Q b) : ∀ b ∈ bs, Q b :=
  (forall_mem_iff_of_forall₂ h fun a b hab => iff_of_true trivial (hpair a b hab)).mp
    fun _ _ => trivial

theorem Part.Of.constructed {e : Element} {part : Part} (h : Part.Of e part) :
    ∀ s ∈ part.sources, Constructed s := by
  cases part with
  | group region name members =>
    exact forall_mem_of_forall₂ h.2.2.2 fun _ _ => Describes.constructed
  | single source => exact List.forall_mem_singleton.mpr (Describes.constructed h)

/-- Every source of a model that was read was constructed from an element. -/
theorem read_constructed (files : Files) (path : String) :
    Yields (fun groups => ∀ g ∈ groups, ∀ s ∈ g.sources, Constructed s)
      (read files path).result := by
  intro groups h g hg s hs
  obtain ⟨root, model, parts, p, _, _, hparts, hfollows, rfl⟩ := read_eq_ok h
  rw [hfollows.groups] at hg
  have hlisted := (arrange_sublist [] parts g hg).subset hs
  obtain ⟨part, hpart, hs⟩ := List.mem_flatMap.mp hlisted
  exact forall_mem_of_forall₂ hparts (fun _ _ => Part.Of.constructed) part hpart s hs

/-- The parts that a model element lists, and the groups that they make up. -/
structure Places (model : Element) (parts : List Part) (groups : List SourceGroup) : Prop where
  /-- One part for each group and for each source outside of a group, in the order of the model. -/
  listed : List.Forall₂ Part.Of (model.elements.filter counts) parts
  arranged : groups = arrange [] parts
  complete : (groups.flatMap (·.sources)).Perm (parts.flatMap Part.sources)
  ordered : ∀ g ∈ groups, g.sources.Sublist (parts.flatMap Part.sources)
  distinct : ((groups.flatMap (·.sources)).map (·.id)).Nodup

/-- The groups of a model that was read hold what the model lists, each source at its place. -/
theorem read_places {files : Files} {path : String} {groups : List SourceGroup}
    (h : (read files path).result = .ok groups) :
    ∃ root model parts, (files.openExisting .missingInput path).result = .ok root ∧
      modelElement path root = .ok model ∧ Places model parts groups := by
  obtain ⟨root, model, parts, p, hroot, hmodel, hparts, hfollows, rfl⟩ := read_eq_ok h
  have hperm := arrange_perm parts
  rw [← hfollows.groups] at hperm
  refine ⟨root, model, parts, hroot, hmodel, hparts, hfollows.groups, hperm, ?_, ?_⟩
  · intro g hg
    exact arrange_sublist [] parts g (hfollows.groups ▸ hg)
  · exact (hperm.map _).nodup_iff.mpr (hfollows.used ▸ hfollows.distinct)

def pointNode (line : Int) (id region : String) : Node :=
  .element "pointSource" line [("id", id), ("tectonicRegion", region)]
    [.element "pointGeometry" (line + 1) []
      [.element "Point" (line + 2) [] [.element "pos" (line + 3) [] [.text "10.5 45"]],
        .element "upperSeismoDepth" (line + 4) [] [.text "0"],
        .element "lowerSeismoDepth" (line + 5) [] [.text "10"]],
      .element "truncGutenbergRichterMFD" (line + 6)
        [("aValue", "2"), ("bValue", "1"), ("minMag", "5"), ("maxMag", "6.5")] []]

def groupNode (line : Int) (name region : String) (members : List Node) : Node :=
  .element "sourceGroup" line [("name", name), ("tectonicRegion", region)] members

def modelOf (nodes : List Node) : Files where
  folder := ""
  entries := [("model.xml", {
    root := some (.element "sourceModel" 1 [] nodes)
    named := true
    trouble := none
    messages := [] })]

theorem modelOf_opened (nodes : List Node) :
    ((modelOf nodes).openExisting .missingInput "model.xml").result =
      .ok ⟨"model.xml", "sourceModel", 1, [], nodes⟩ := rfl

def mixedModel : Files := modelOf
  [pointNode 2 "p1" "shield",
    groupNode 9 "deep" "trench"
      [pointNode 10 "p2" "", .element "note" 17 [] [], pointNode 18 "p3" "trench"],
    pointNode 25 "p4" "trench", groupNode 32 "late" "shield" [], .element "note" 33 [] [],
    pointNode 34 "p5" "shield", pointNode 41 "p6" "ridge"]

theorem read_places_mixedModel :
    ∃ groups root model parts, (read mixedModel "model.xml").result = .ok groups ∧
      groups.map (fun g => (g.region, g.name, g.sources.map (·.id))) =
        [("shield", "", ["p1", "p5"]), ("trench", "deep", ["p2", "p3", "p4"]),
          ("shield", "late", []), ("ridge", "", ["p6"])] ∧
      (mixedModel.openExisting .missingInput "model.xml").result = .ok root ∧
      modelElement "model.xml" root = .ok model ∧ Places model parts groups := by
  have hread : (read mixedModel "model.xml").result.toOption.map
      (·.map fun g => (g.region, g.name, g.sources.map (·.id))) =
        some [("shield", "", ["p1", "p5"]), ("trench", "deep", ["p2", "p3", "p4"]),
          ("shield", "late", []), ("ridge", "", ["p6"])] := by decide +kernel
  obtain ⟨groups, hok, hgroups⟩ := exists_of_toOption_map hread
  obtain ⟨root, model, parts, hroot, hmodel, hplaces⟩ := read_places hok
  exact ⟨groups, root, model, parts, hok, hgroups, hroot, hmodel, hplaces⟩

end SeismicTree.SourceModel

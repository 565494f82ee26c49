import SeismicTree.Proofs.GeometryFailures
import SeismicTree.Proofs.SourceReading

/-!
# How the reading of a source model can fail

A model that cannot be read has a source element that is at fault, and the failure shows its file,
its id and the line of something in it. What is wrong with it is a fault of the input, with one
exception: a source element with nothing wrong but that its id is missing or blank. It gets as far
as the source that is made from it, and what comes back is meant for programs that make such
sources. Nothing is said about files that cannot be opened or that hold no source model.
-/

namespace SeismicTree.SourceModel

section Readers
variable {root e : Element}

theorem gutenbergRichter_spoils (inside : root.Contains e) :
    FailsWith root.Spoils (gutenbergRichter e) := by
  unfold gutenbergRichter
  refine failsWith_bind (Element.requireNumber_spoils inside _) fun bValue _ => ?_
  refine failsWith_bind (Element.requireNumber_spoils inside _) fun aValue _ => ?_
  refine failsWith_bind (Element.attributeAs_spoils inside Binary64 _) fun width _ => ?_
  refine failsWith_bind (Element.requireNumber_spoils inside _) fun maxMag _ => ?_
  refine failsWith_bind (Element.requireNumber_spoils inside _) fun minMag _ => ?_
  exact failsWith_map ((GutenbergRichter.checked_outside _).mono fun _ h => h.spoils)

theorem binned_spoils (inside : root.Contains e) : FailsWith root.Spoils (binned e) := by
  unfold binned
  refine Element.bind_child_spoils inside fun rates _ => ?_
  refine failsWith_bind (Geometry.numbers_spoils _) fun rates _ => ?_
  refine failsWith_bind (Element.requireNumber_spoils inside _) fun binWidth _ => ?_
  refine failsWith_bind (Element.requireNumber_spoils inside _) fun minMag _ => ?_
  exact failsWith_map ((BinnedRates.checked_outside _).mono fun _ h => h.spoils)

theorem mfd?_spoils (e : Element) : FailsWith e.Spoils (mfd? e) := by
  unfold mfd?
  split
  · exact failsWith_map (gutenbergRichter_spoils (Element.Contains.root.child? ‹_›))
  · exact failsWith_map (binned_spoils (Element.Contains.root.child? ‹_›))
  · exact failsWith_ok none

theorem depths_spoils (inside : root.Contains e) : FailsWith root.Spoils (depths e) := by
  unfold depths
  refine Element.bind_child_spoils inside fun c hc => ?_
  refine failsWith_bind (Element.textAs_spoils hc Binary64) fun upper _ => ?_
  refine Element.bind_child_spoils inside fun c hc => ?_
  exact failsWith_bind (Element.textAs_spoils hc Binary64) fun lower _ => failsWith_ok _

theorem pointBody_spoils (e : Element) : FailsWith e.Spoils (pointBody e) := by
  unfold pointBody
  refine Element.bind_child_spoils .root fun geometry inside => ?_
  refine failsWith_bind (depths_spoils inside) fun depths _ => ?_
  exact failsWith_bind (Geometry.point_spoils inside) fun point _ => failsWith_ok _

theorem areaBody_spoils (e : Element) : FailsWith e.Spoils (areaBody e) := by
  unfold areaBody
  refine Element.bind_child_spoils .root fun geometry inside => ?_
  refine failsWith_bind (depths_spoils inside) fun depths _ => ?_
  refine failsWith_bind (Element.attributeAs_spoils inside Binary64 _) fun discretization _ => ?_
  exact failsWith_bind (Geometry.polygon_spoils inside) fun polygon _ => failsWith_ok _

theorem simpleFaultBody_spoils (e : Element) : FailsWith e.Spoils (simpleFaultBody e) := by
  unfold simpleFaultBody
  refine Element.bind_child_spoils .root fun geometry inside => ?_
  exact failsWith_map (Geometry.simpleFault_spoils inside _)

theorem complexFaultBody_spoils (e : Element) : FailsWith e.Spoils (complexFaultBody e) := by
  unfold complexFaultBody
  refine Element.bind_child_spoils .root fun geometry inside => ?_
  exact failsWith_map (Geometry.complexFault_spoils inside _)

theorem surfacePart_spoils (inside : root.Contains e) :
    FailsWith root.Spoils (surfacePart e) := by
  unfold surfacePart
  refine failsWith_bind (Geometry.singleSurface?_spoils inside _) fun surface _ => ?_
  split
  · exact failsWith_ok _
  · exact failsWith_error ⟨.tail _ (.head _), fun _ hn => ⟨e, inside, Option.some.inj hn⟩⟩

theorem characteristicFaultBody_spoils (e : Element) :
    FailsWith e.Spoils (characteristicFaultBody e) := by
  unfold characteristicFaultBody
  refine Element.bind_child_spoils .root fun surface inside => ?_
  have hparts : FailsWith e.Spoils (surface.elements.mapM surfacePart) :=
    failsWith_mapM fun part hpart => surfacePart_spoils (inside.child hpart)
  refine failsWith_bind hparts fun parts _ => ?_
  split
  · exact failsWith_error (spoils_markup rfl)
  · exact failsWith_ok _

/-- The element of each kind of source fails on account of something inside of it. -/
theorem reader_spoils {name : String} {reader : Element → Except Failure SourceBody}
    (h : bodyReader? name = some reader) (e : Element) : FailsWith e.Spoils (reader e) := by
  rw [bodyReader?] at h
  split at h
  · cases h; exact pointBody_spoils e
  split at h
  · cases h; exact areaBody_spoils e
  split at h
  · cases h; exact simpleFaultBody_spoils e
  split at h
  · cases h; exact complexFaultBody_spoils e
  split at h
  · cases h; exact characteristicFaultBody_spoils e
  · cases h

end Readers

/-- A source element without an id of which everything can be read. -/
def Nameless (e : Element) : Prop :=
  e.attributeText "id" = "" ∧
    ∃ reader b mfd, bodyReader? e.name = some reader ∧ reader e = .ok b ∧ mfd? e = .ok mfd

def inputKinds : List FailureKind := [.markupValidity, .domain, .duplicateElement]

/-- A failure for which a source element is to blame. -/
structure Blames (e : Element) (f : Failure) : Prop where
  kind : (Nameless e ∧ f.kind = .logic) ∨ (¬ Nameless e ∧ f.kind ∈ inputKinds)
  line : ∀ n, f.context.line = some n → ∃ c, e.Contains c ∧ c.line = n

/-- A source element that is not nameless fails as what is inside of it does. -/
theorem blames_of_spoils {e : Element} {f : Failure} (hnot : ¬ Nameless e) (h : e.Spoils f) :
    Blames e f where
  kind := .inr ⟨hnot, (by decide : geometryKinds ⊆ inputKinds) h.kind⟩
  line := h.line

theorem construct_blames {e : Element} {reader : Element → Except Failure SourceBody}
    (hreader : bodyReader? e.name = some reader) (region : String) (used : List String) :
    FailsWith (Blames e) (construct e region used reader) := by
  intro f h
  rw [construct] at h
  cases hb : reader e with
  | error f' =>
    rw [hb] at h
    cases h
    refine blames_of_spoils ?_ (reader_spoils hreader e f hb)
    rintro ⟨_, reader', b, _, hreader', hb', _⟩
    cases hreader.symm.trans hreader'
    cases hb.symm.trans hb'
  | ok b =>
    rw [hb, ok_bind] at h
    cases hmfd : mfd? e with
    | error f' =>
      rw [hmfd] at h
      cases h
      refine blames_of_spoils ?_ (mfd?_spoils e f hmfd)
      rintro ⟨_, _, _, _, _, _, hmfd'⟩
      cases hmfd.symm.trans hmfd'
    | ok mfd =>
      rw [hmfd, ok_bind] at h
      revert f
      refine failsWith_bind ?_ fun s hs => ?_
      · rw [Source.make]
        refine failsWith_check (fun hid => ?_) fun hid => ?_
        · exact ⟨.inl ⟨⟨hid, reader, b, mfd, hreader, hb, hmfd⟩, rfl⟩, fun _ hn => by cases hn⟩
        · refine failsWith_bind (fun f hf => ?_) fun _ _ => failsWith_ok _
          exact blames_of_spoils (fun h => hid h.1) (Source.checkBody_outside _ b f hf).spoils
      · have hid := (make_eq_ok.mp hs).1
        refine failsWith_check (fun _ => ?_) fun _ => failsWith_ok s
        exact ⟨.inr ⟨fun h => hid h.1, .tail _ (.tail _ (.head _))⟩, fun _ hn => by cases hn⟩

/-- A failure that shows the file and the source element that is to blame for it. -/
structure RefusedAt (file : String) (e : Element) (f : Failure) : Prop where
  kind : (Nameless e ∧ f.kind = .logic) ∨ (¬ Nameless e ∧ f.kind ∈ inputKinds)
  source : f.context.source = some (e.attributeText "id")
  file : f.context.file = some file
  line : ∃ c, e.Contains c ∧ f.context.line = some c.line

/-- The line that a failure shows already stays. Where there is none, the element adds its own. -/
theorem Blames.refusedAt {e : Element} {f : Failure} (h : Blames e f) (file : String) :
    RefusedAt file e (f.within (place file e)) where
  kind := h.kind
  source := rfl
  file := rfl
  line := by
    cases hline : f.context.line with
    | none => exact ⟨e, .root, by rw [Failure.within, place, hline]; rfl⟩
    | some n =>
      obtain ⟨c, hc, rfl⟩ := h.line n hline
      exact ⟨c, hc, by rw [Failure.within, place, hline]; rfl⟩

theorem readSource_refused (file region : String) (used : List String) (e : Element) :
    FailsWith (fun f => isSource e = true ∧ RefusedAt file e f)
      (readSource file region used e).result := by
  rw [readSource]
  cases hreader : bodyReader? e.name with
  | none => exact failsWith_ok none
  | some reader =>
    simp only [Logged.result_map, Logged.result_liftM]
    refine failsWith_map (failsWith_mapError fun f hf => ⟨?_, ?_⟩)
    · rw [isSource, hreader]
      rfl
    · exact (construct_blames hreader region used f hf).refusedAt file

theorem readMembers_refused (file region : String) (used : List String) (es : List Element) :
    FailsWith (fun f => ∃ e ∈ es, isSource e = true ∧ RefusedAt file e f)
      (readMembers file region used es).result := by
  induction es generalizing used with
  | nil => exact failsWith_ok _
  | cons e es ih =>
    have hrest (used : List String) :
        FailsWith (fun f => ∃ e' ∈ e :: es, isSource e' = true ∧ RefusedAt file e' f)
          (readMembers file region used es).result := by
      intro f hf
      obtain ⟨e', he', h⟩ := ih used f hf
      exact ⟨e', List.mem_cons_of_mem e he', h⟩
    rw [readMembers, Logged.result_bind]
    refine failsWith_bind (fun f hf => ?_) fun found _ => ?_
    · exact ⟨e, List.mem_cons_self, readSource_refused file region used e f hf⟩
    · cases found with
      | none => exact hrest used
      | some s =>
        rw [Logged.result_bind]
        exact failsWith_bind (hrest _) fun _ _ => failsWith_ok _

/-- A source element at the top of a model, or in a group that stands there. -/
def Offers (model e : Element) : Prop :=
  isSource e = true ∧
    (e ∈ model.elements ∨ ∃ g ∈ model.elements, g.name = "sourceGroup" ∧ e ∈ g.elements)

theorem readEntry_refused {model entry : Element} (file : String) (p : Progress)
    (hentry : entry ∈ model.elements) :
    FailsWith (fun f => ∃ e, Offers model e ∧ RefusedAt file e f)
      (readEntry file p entry).result := by
  rw [readEntry]
  split
  · rename_i hgroup
    rw [Logged.result_bind]
    refine failsWith_bind (fun f hf => ?_) fun _ _ => failsWith_ok _
    obtain ⟨e, he, hsource, h⟩ := readMembers_refused _ _ _ _ f hf
    exact ⟨e, ⟨hsource, .inr ⟨entry, hentry, hgroup, he⟩⟩, h⟩
  · rw [Logged.result_bind]
    refine failsWith_bind (fun f hf => ?_) fun found _ => ?_
    · obtain ⟨hsource, h⟩ := readSource_refused _ _ _ _ f hf
      exact ⟨entry, ⟨hsource, .inl hentry⟩, h⟩
    · cases found with
      | none => exact failsWith_ok _
      | some s => exact failsWith_ok _

theorem exists_modelElement {root : Element} (file : String)
    (h : root.name = "sourceModel" ∨ (root.child? "sourceModel").isSome = true) :
    ∃ model, modelElement file root = .ok model := by
  rw [modelElement]
  by_cases hroot : root.name = "sourceModel"
  · exact ⟨root, if_pos hroot⟩
  · obtain ⟨model, hmodel⟩ := Option.isSome_iff_exists.mp (h.resolve_left hroot)
    exact ⟨model, by rw [if_neg hroot, Element.requireChild, hmodel]; rfl⟩

/-- A document with a source model is read, or the failure tells the source element of the model
that is to blame. It is a fault of the input unless that element is nameless. -/
theorem read_or_refused {files : Files} {path : String} {root : Element}
    (opened : (files.openExisting .missingInput path).result = .ok root)
    (modelled : root.name = "sourceModel" ∨ (root.child? "sourceModel").isSome = true) :
    ∃ model, modelElement path root = .ok model ∧
      ((∃ groups, (read files path).result = .ok groups) ∨
        ∃ f e, (read files path).result = .error f ∧ Offers model e ∧ RefusedAt path e f) := by
  obtain ⟨model, hmodel⟩ := exists_modelElement path modelled
  have hrun : FailsWith (fun f => ∃ e, Offers model e ∧ RefusedAt path e f)
      (read files path).result := by
    rw [read, Logged.result_timed, Logged.result_bind, opened, ok_bind, readElement,
      Logged.result_bind, Logged.result_liftM, hmodel, ok_bind, Logged.result_bind,
      Logged.result_foldlM]
    refine failsWith_bind (failsWith_foldlM (fun e he p => ?_) _) fun _ _ => failsWith_ok _
    exact readEntry_refused path p he
  refine ⟨model, hmodel, ?_⟩
  cases hread : (read files path).result with
  | ok groups => exact .inl ⟨groups, rfl⟩
  | error f =>
    obtain ⟨e, he, h⟩ := hrun f hread
    exact .inr ⟨f, e, rfl, he, h⟩

def repeatedModel : Files := modelOf
  [pointNode 2 "p1" "shield", groupNode 9 "deep" "trench" [pointNode 10 "p1" ""]]

theorem read_or_refused_repeatedModel :
    ∃ model f e, (repeatedModel.openExisting .missingInput "model.xml").result = .ok model ∧
      model.name = "sourceModel" ∧
      (read repeatedModel "model.xml").result = .error f ∧ Offers model e ∧
      RefusedAt "model.xml" e f ∧ f.kind = .duplicateElement ∧ f.context.source = some "p1" ∧
      f.context.line = some 10 := by
  have hfailure : (match (read repeatedModel "model.xml").result with
      | .ok _ => none
      | .error f => some (f.kind, f.context.source, f.context.line)) =
        some (.duplicateElement, some "p1", some 10) := by decide +kernel
  have hopened : (repeatedModel.openExisting .missingInput "model.xml").result = .ok _ :=
    modelOf_opened _
  obtain ⟨model, hmodel, ⟨groups, hread⟩ | ⟨f, e, hread, he, hrefused⟩⟩ :=
    read_or_refused hopened (.inl rfl)
  · rw [hread] at hfailure
    cases hfailure
  · rw [hread] at hfailure
    obtain ⟨hkind, hplace⟩ := Prod.mk.inj (Option.some.inj hfailure)
    obtain ⟨hsource, hline⟩ := Prod.mk.inj hplace
    cases hmodel
    exact ⟨_, f, e, hopened, rfl, hread, he, hrefused, hkind, hsource, hline⟩

def namelessModel : Files := modelOf [pointNode 2 "" "shield"]

/-- What is wrong with an input file may be reported as a misuse of the program. -/
theorem exists_logic_failure :
    ∃ root f, (namelessModel.openExisting .missingInput "model.xml").result = .ok root ∧
      root.name = "sourceModel" ∧ (read namelessModel "model.xml").result = .error f ∧
      f.kind = .logic := by
  have hfailure : (match (read namelessModel "model.xml").result with
      | .ok _ => none
      | .error f => some f.kind) = some .logic := by decide +kernel
  cases hread : (read namelessModel "model.xml").result with
  | ok groups =>
    rw [hread] at hfailure
    cases hfailure
  | error f =>
    rw [hread] at hfailure
    exact ⟨_, f, modelOf_opened _, rfl, rfl, Option.some.inj hfailure⟩

end SeismicTree.SourceModel

import SeismicTree.Proofs.GroupRegions

/-!
# Selections in two lists

A plain selection changes a source into another that no filter tells from it: a modification leaves
its identifier, its region and its kind alone. Every source so becomes exactly one, and whether the
selections of a second list apply to it can be asked before or after those of a first one. To apply
two lists of plain selections at once is then the same as to apply one list after the other. A
source that one of the lists has nothing for is only handed on by it.

The two ways may fail with different failures: the one run tests the filters of both lists first,
and it takes one source through both lists before it comes to the next.
-/

namespace SeismicTree

namespace Source

/-- No filter tells the source from another. -/
structure FilteredAs (s' s : Source) : Prop where
  id : s'.id = s.id
  region : s'.region = s.region
  kind : s'.kind = s.kind

/-- A kind supports only modifications that lead to the same kind. -/
theorem kind_changeBody? (s : Source) {b b' : SourceBody} {change : SourceChange}
    (h : changeBody? b change = some (.ok b')) :
    kind { s with body := b' } = kind { s with body := b } := by
  unfold changeBody? at h
  split at h
  · obtain ⟨_, _, rfl⟩ := map_eq_ok.mp (Option.some.inj h)
    rfl
  · obtain ⟨_, _, rfl⟩ := map_eq_ok.mp (Option.some.inj h)
    rfl
  · obtain ⟨_, _, rfl⟩ := map_eq_ok.mp (Option.some.inj h)
    rfl
  · obtain ⟨_, _, rfl⟩ := map_eq_ok.mp (Option.some.inj h)
    rfl
  · cases h
    rfl
  · cases h

theorem kind_carryOut {s s' : Source} {m : Modification} (h : s.carryOut m = .ok s') :
    s'.kind = s.kind := by
  cases m with
  | ofSource change =>
    rw [carryOut, modify] at h
    have h := mapError_eq_ok.mp h
    split at h
    · rename_i result hchange
      obtain ⟨body, rfl, rfl⟩ := map_eq_ok.mp h
      exact kind_changeBody? s hchange
    · cases h
  | ofMfd change =>
    obtain ⟨m, rfl⟩ := modifyMfd_eq_ok h
    rfl

theorem kind_apply {u : Uncertainty} {value : UncertaintyValue} {s s' : Source}
    (h : s.apply u value = .ok s') : s'.kind = s.kind := by
  rw [apply] at h
  split at h
  · split at h
    · exact kind_carryOut (mapError_eq_ok.mp h)
    · cases h
  · cases h

theorem kind_settle {w w' : Source} {a : Selection Binary64} (h : a.settle w = .ok w') :
    w'.kind = w.kind := by
  rw [Selection.settle] at h
  split at h
  · cases h
    rfl
  · exact kind_apply h

theorem kind_after (w : Source) (as : List (Selection Binary64)) :
    Yields (fun w' => kind w' = kind w) (w.after as) :=
  yields_foldlM (fun _ _ _ before _ h => (kind_settle h).trans before) rfl

theorem after_filteredAs {w w' : Source} {as : List (Selection Binary64)}
    (h : w.after as = .ok w') : w'.FilteredAs w := by
  have hkind := kind_after w as w' h
  obtain ⟨_, _, rfl⟩ := after_eq_ok h
  exact ⟨rfl, rfl, hkind⟩

theorem after_append (w : Source) (as bs : List (Selection Binary64)) :
    w.after (as ++ bs) = w.after as >>= fun mid => mid.after bs :=
  List.foldlM_append

end Source

section Filters
variable {source w : Source}

theorem Decision.applies_congr (d : Decision) (same : w.FilteredAs source) :
    d.applies w = d.applies source := by
  suffices hall : ∀ entries, d.passesAll w entries = d.passesAll source entries from
    hall d.filters.entries
  intro entries
  induction entries with
  | nil => rfl
  | cons f rest ih =>
    have hfirst : d.passes f.1 f.2 w = d.passes f.1 f.2 source := by
      rw [passes, passes, same.id, same.region, same.kind]
    rw [passesAll, passesAll, hfirst, ih]

theorem Selection.filter_appliesTo_congr (sels : List (Selection Binary64))
    (same : w.FilteredAs source) :
    sels.filter (·.appliesTo w) = sels.filter (·.appliesTo source) :=
  List.filter_congr fun a _ => by
    rw [Selection.appliesTo, Selection.appliesTo, a.set.decision.applies_congr same]

end Filters

section Plain
variable {sels P Q : List (Selection Binary64)}

/-- The outputs of plain selections are the working copy alone. -/
theorem Source.outputs_plain {as : List (Selection Binary64)}
    (plain : ∀ a ∈ as, a.isCollapsed = false) (some : as ≠ []) (source : Source) :
    source.outputs as = source.after as >>= fun last => .ok [last] := by
  have hfirst : Selection.plainFirst as = true := by
    cases as with
    | nil => exact absurd rfl some
    | cons a as => simp [Selection.plainFirst, plain a List.mem_cons_self]
  rw [outputs, parts_plain plain, hfirst]
  cases source.after as with
  | error f => rfl
  | ok last => rfl

/-- Plain selections make one source of a source, if all filters can be tested and the values of
those that apply can be applied to it in their order. -/
theorem transformSource_plain (plain : ∀ a ∈ sels, a.isCollapsed = false) (source : Source)
    {r : List Source × Nat} :
    (transformSource sels source).result = .ok r ↔
      (∀ a ∈ sels, ¬ Fails (a.set.decision.applies source)) ∧
      ∃ last, source.after (sels.filter (·.appliesTo source)) = .ok last ∧
        ([last], (sels.filter (·.appliesTo source)).length) = r := by
  have hchosen : ∀ a ∈ sels.filter (·.appliesTo source), a.isCollapsed = false :=
    fun a ha => plain a (List.mem_filter.mp ha).1
  have hrun : source.transformed sels = (do
      sels.forM fun a => discard (a.set.decision.applies source)
      (fun last => ([last], (sels.filter (·.appliesTo source)).length)) <$>
        source.after (sels.filter (·.appliesTo source))) := by
    rw [Source.transformed]
    generalize sels.filter (·.appliesTo source) = as at hchosen
    cases as with
    | nil => rfl
    | cons a as =>
      simp only [Source.outputs_plain hchosen (List.cons_ne_nil a as),
        Selection.sum_changes_plain hchosen]
      cases source.after (a :: as) with
      | error f => rfl
      | ok last => rfl
  rw [result_transformSource (Selection.populated_of_plain plain), hrun, bind_eq_ok,
    exists_and_right, exists_forM_eq_ok, map_eq_ok]

section Append
variable (plainP : ∀ a ∈ P, a.isCollapsed = false) (plainQ : ∀ a ∈ Q, a.isCollapsed = false)
include plainP plainQ

/-- One source through both lists. -/
theorem transformSource_append (source : Source) {r : List Source × Nat} :
    (transformSource (P ++ Q) source).result = .ok r ↔
      ∃ mid n last m, (transformSource P source).result = .ok ([mid], n) ∧
        (transformSource Q mid).result = .ok ([last], m) ∧ r = ([last], n + m) := by
  have hplain := List.forall_mem_append.mpr ⟨plainP, plainQ⟩
  rw [transformSource_plain hplain, List.forall_mem_append, List.filter_append,
    Source.after_append, List.length_append]
  constructor
  · rintro ⟨⟨htestsP, htestsQ⟩, last, h, rfl⟩
    obtain ⟨mid, hmid, hlast⟩ := bind_eq_ok.mp h
    have hsame := Source.after_filteredAs hmid
    refine ⟨mid, _, last, _, (transformSource_plain plainP source).mpr ⟨htestsP, mid, hmid, rfl⟩,
      (transformSource_plain plainQ mid).mpr ⟨fun a ha => ?_, last, ?_, rfl⟩, ?_⟩
    · rw [a.set.decision.applies_congr hsame]
      exact htestsQ a ha
    · rw [Selection.filter_appliesTo_congr Q hsame]
      exact hlast
    · rw [Selection.filter_appliesTo_congr Q hsame]
  · rintro ⟨mid, n, last, m, hP, hQ, rfl⟩
    obtain ⟨htestsP, _, hmid, h⟩ := (transformSource_plain plainP source).mp hP
    cases h
    obtain ⟨htestsQ, _, hlast, h⟩ := (transformSource_plain plainQ mid).mp hQ
    cases h
    have hsame := Source.after_filteredAs hmid
    rw [Selection.filter_appliesTo_congr Q hsame] at hlast ⊢
    refine ⟨⟨htestsP, fun a ha => ?_⟩, last, bind_eq_ok.mpr ⟨mid, hmid, hlast⟩, rfl⟩
    rw [← a.set.decision.applies_congr hsame]
    exact htestsQ a ha

/-- All sources through both lists. The one run takes each source through both before the next. -/
theorem transformSources_append (sources : List Source) {r : List Source × Nat} :
    (transformSources (P ++ Q) sources).result = .ok r ↔
      ∃ mids n lasts m, (transformSources P sources).result = .ok (mids, n) ∧
        (transformSources Q mids).result = .ok (lasts, m) ∧ r = (lasts, n + m) := by
  induction sources generalizing r with
  | nil =>
    constructor
    · intro h
      cases h
      exact ⟨[], 0, [], 0, rfl, rfl, rfl⟩
    · rintro ⟨mids, n, lasts, m, hP, hQ, rfl⟩
      cases hP
      cases hQ
      rfl
  | cons source sources ih =>
    rw [transformSources_cons_eq_ok]
    constructor
    · rintro ⟨outs, k, others, l, hfirst, hrest, rfl⟩
      obtain ⟨mid, n, last, m, hP, hQ, h⟩ := (transformSource_append plainP plainQ source).mp hfirst
      cases h
      obtain ⟨mids, n', lasts, m', hP', hQ', h⟩ := ih.mp hrest
      obtain ⟨rfl, rfl⟩ := Prod.mk.inj h
      refine ⟨mid :: mids, n + n', last :: others, m + m', ?_, ?_, ?_⟩
      · exact transformSources_cons_eq_ok.mpr ⟨_, _, _, _, hP, hP', rfl⟩
      · exact transformSources_cons_eq_ok.mpr ⟨_, _, _, _, hQ, hQ', rfl⟩
      · rw [Nat.add_add_add_comm]
        rfl
    · -- The first list makes one source of the first, so the second list meets them in line.
      rintro ⟨mids, n, lasts, m, hP, hQ, rfl⟩
      obtain ⟨outs, k, others, l, hfirst, hrest, h⟩ := transformSources_cons_eq_ok.mp hP
      cases h
      obtain ⟨_, mid, hmid, h⟩ := (transformSource_plain plainP source).mp hfirst
      cases h
      obtain ⟨outs', k', others', l', hfirst', hrest', h⟩ := transformSources_cons_eq_ok.mp hQ
      cases h
      obtain ⟨_, last, hlast, h⟩ := (transformSource_plain plainQ mid).mp hfirst'
      cases h
      refine ⟨_, _, _, _, (transformSource_append plainP plainQ source).mpr
        ⟨_, _, _, _, hfirst, hfirst', rfl⟩, ih.mpr ⟨_, _, _, _, hrest, hrest', rfl⟩, ?_⟩
      rw [Nat.add_add_add_comm]

/-- Plain selections of two lists lead to the same group at once or one list after the other: both
ways succeed or neither does, the sources are the same in the same order, and the changes of the
one run are those of both. -/
theorem applySelections_append (g g' : SourceGroup) :
    (applySelections (P ++ Q) g).result = .ok g' ↔
      ∃ g₁ g₂, (applySelections P g).result = .ok g₁ ∧ (applySelections Q g₁).result = .ok g₂ ∧
        g' = { g₂ with changes := g₁.changes + g₂.changes } := by
  constructor
  · intro h
    obtain ⟨sources, _, hall, rfl⟩ := applySelections_eq_ok.mp h
    obtain ⟨mids, n, lasts, m, hP, hQ, hr⟩ :=
      (transformSources_append plainP plainQ g.sources).mp hall
    obtain ⟨rfl, rfl⟩ := Prod.mk.inj hr
    exact ⟨⟨g.region, g.name, mids, n⟩, ⟨g.region, g.name, sources, m⟩,
      applySelections_eq_ok.mpr ⟨_, _, hP, rfl⟩, applySelections_eq_ok.mpr ⟨_, _, hQ, rfl⟩, rfl⟩
  · rintro ⟨g₁, g₂, h₁, h₂, rfl⟩
    obtain ⟨mids, n, hP, rfl⟩ := applySelections_eq_ok.mp h₁
    obtain ⟨lasts, m, hQ, rfl⟩ := applySelections_eq_ok.mp h₂
    exact applySelections_eq_ok.mpr ⟨lasts, n + m,
      (transformSources_append plainP plainQ g.sources).mpr ⟨_, _, _, _, hP, hQ, rfl⟩, rfl⟩

end Append

end Plain

/-- One point that both lists are for, one that only the second is for, and one for neither. -/
theorem applySelections_append_points :
    ∃ P Q g₁ g₂, (∀ a ∈ P, a.isCollapsed = false) ∧ (∀ a ∈ Q, a.isCollapsed = false) ∧
      (applySelections P .points).result = .ok g₁ ∧ (applySelections Q g₁).result = .ok g₂ ∧
      g₁.sources = [.pointOf "p1" 7 1 1, .pointOf "p2" 6 1 1, .pointOf "p3" 6 1 1] ∧
      g₂.sources = [.pointOf "p1" 8 1 1, .pointOf "p2" 8 1 1, .pointOf "p3" 6 1 1] ∧
      (applySelections (P ++ Q) .points).result = .ok { g₂ with changes := 3 } := by
  have plain : ∀ maxMag filters, ∀ a ∈ [Selection.bounds maxMag filters], a.isCollapsed = false :=
    fun _ _ a ha => by rw [List.mem_singleton.mp ha]; rfl
  have hfirst : (applySelections [.bounds 7 ⟨[("applyToSources", "p1")]⟩] .points).result.toOption =
      some ⟨"Active Shallow Crust", "",
        [.pointOf "p1" 7 1 1, .pointOf "p2" 6 1 1, .pointOf "p3" 6 1 1], 1⟩ := by decide +kernel
  have hsecond : (applySelections [.bounds 8 ⟨[("applyToSources", "p1 p2")]⟩]
      ⟨"Active Shallow Crust", "",
        [.pointOf "p1" 7 1 1, .pointOf "p2" 6 1 1, .pointOf "p3" 6 1 1], 1⟩).result.toOption =
      some ⟨"Active Shallow Crust", "",
        [.pointOf "p1" 8 1 1, .pointOf "p2" 8 1 1, .pointOf "p3" 6 1 1], 2⟩ := by decide +kernel
  have h₁ := toOption_eq_some.mp hfirst
  have h₂ := toOption_eq_some.mp hsecond
  exact ⟨_, _, _, _, plain 7 _, plain 8 _, h₁, h₂, rfl, rfl,
    (applySelections_append (plain 7 _) (plain 8 _) .points _).mpr ⟨_, _, h₁, h₂, rfl⟩⟩

end SeismicTree

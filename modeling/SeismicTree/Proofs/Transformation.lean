import SeismicTree.Transformation
import SeismicTree.Proofs.Results
import Mathlib.Algebra.Ring.Nat

/-!
# What a transformation leads to

The sources that a source is transformed into, said without the state of a transformation: the
working copy at a place is told by the plain selections in front of it, and every collapsed
selection has the copies that are made of the working copy at its place. The parts are asked for in
the order of the selections, so a failure is the same one, too. What is logged has no part here.
-/

namespace SeismicTree

namespace Selection

def isCollapsed (a : Selection Binary64) : Bool := a.set.decision.collapsed

/-- The working copy after a selection. A collapsed one leaves it alone. -/
def settle (w : Source) (a : Selection Binary64) : Except Failure Source :=
  if a.isCollapsed then .ok w else Source.apply a.set.decision.uncertainty a.value w

/-- The copies of the working copy that a selection adds. A plain one adds none. -/
def copies (w : Source) (a : Selection Binary64) : Except Failure (List Source) :=
  if a.isCollapsed then
    if w.isMultiSurface then
      .error
        { cause := .collapsedMultiSurface
          context := { source := some w.id, branchSet := some a.set.decision.id } }
    else
      a.set.branches.mapM fun b =>
        Source.apply a.set.decision.uncertainty b.value { w with scalingRate := b.weight }
  else .ok []

def changes (a : Selection Binary64) : Nat := if a.isCollapsed then a.set.branches.length else 1

/-- A selection cannot be applied to a working copy. -/
def Refuses (w : Source) (a : Selection Binary64) : Prop :=
  if a.isCollapsed then
    w.isMultiSurface = true ∨ ∃ b ∈ a.set.branches,
      Fails (Source.apply a.set.decision.uncertainty b.value { w with scalingRate := b.weight })
  else Fails (Source.apply a.set.decision.uncertainty a.value w)

/-- A selection applies to a source; no filter that is tested is a failure. -/
def appliesTo (source : Source) (a : Selection Binary64) : Bool :=
  match a.set.decision.applies source with
  | .ok passed => passed
  | .error _ => false

section Kinds
variable {a : Selection Binary64} (w : Source)

theorem settle_plain (h : a.isCollapsed = false) :
    a.settle w = Source.apply a.set.decision.uncertainty a.value w := by simp [settle, h]

theorem settle_collapsed (h : a.isCollapsed = true) : a.settle w = .ok w := by simp [settle, h]

theorem copies_plain (h : a.isCollapsed = false) : a.copies w = .ok [] := by simp [copies, h]

theorem changes_plain (h : a.isCollapsed = false) : a.changes = 1 := by simp [changes, h]

theorem changes_collapsed (h : a.isCollapsed = true) :
    a.changes = a.set.branches.length := by simp [changes, h]

end Kinds

theorem populated_of_plain {as : List (Selection Binary64)}
    (plain : ∀ a ∈ as, a.isCollapsed = false) :
    ∀ a ∈ as, a.isCollapsed = true → a.set.branches ≠ [] := by
  intro a ha hcollapsed
  rw [plain a ha] at hcollapsed
  cases hcollapsed

/-- Whether the first of some selections is there and is a plain one. -/
def plainFirst (as : List (Selection Binary64)) : Bool := as.head?.any (!·.isCollapsed)

end Selection

namespace Source

/-- The working copy of a source after some selections. -/
def after (w : Source) (as : List (Selection Binary64)) : Except Failure Source :=
  as.foldlM Selection.settle w

/-- The working copy after all selections, and all copies that are made on the way. -/
def parts (w : Source) (as : List (Selection Binary64)) :
    Except Failure (Source × List Source) := do
  let copies ← as.zipIdx.mapM fun (a, j) => do a.copies (← w.after (as.take j))
  return (← w.after as, copies.flatten)

/-- The sources that some selections lead to: the working copy, if the first of them is plain, and
the copies. -/
def outputs (w : Source) (as : List (Selection Binary64)) : Except Failure (List Source) := do
  let (last, copies) ← w.parts as
  return if Selection.plainFirst as then last :: copies else copies

/-- What one source of a group becomes, and the number of changes. All filters are tested first. -/
def transformed (sels : List (Selection Binary64)) (source : Source) :
    Except Failure (List Source × Nat) := do
  sels.forM fun a => discard (a.set.decision.applies source)
  match sels.filter (·.appliesTo source) with
  | [] => return ([source], 0)
  | as => return (← source.outputs as, (as.map (·.changes)).sum)

/-- A filter cannot be tested, or some selection that applies cannot be applied at its place. -/
def Troubled (sels : List (Selection Binary64)) (source : Source) : Prop :=
  (∃ a ∈ sels, Fails (a.set.decision.applies source)) ∨
    ∃ j a w, (sels.filter (·.appliesTo source))[j]? = some a ∧
      source.after ((sels.filter (·.appliesTo source)).take j) = .ok w ∧ a.Refuses w

end Source

def SourceGroup.transformed (sels : List (Selection Binary64)) (group : SourceGroup) :
    Except Failure SourceGroup := do
  let results ← group.sources.mapM (Source.transformed sels)
  return {
    region := group.region
    name := group.name
    sources := (results.map (·.1)).flatten
    changes := (results.map (·.2)).sum }

namespace Transforming

theorem result_scaledCopy (u : Uncertainty) (w : Source) (c : Choice Binary64) :
    (scaledCopy u w c).result = Source.apply u c.value { w with scalingRate := c.weight } := by
  rw [scaledCopy, Source.applyLogged]
  exact Logged.result_note_before _ _ _

theorem result_scaledCopies (u : Uncertainty) (w : Source) (bs : List (Branch Binary64)) :
    ((bs.map (·.choice)).mapM (scaledCopy u w)).result =
      bs.mapM fun b => Source.apply u b.value { w with scalingRate := b.weight } := by
  rw [Logged.result_mapM, List.mapM_map]
  exact congrArg (bs.mapM ·) (funext fun b => result_scaledCopy u w b.choice)

/-- A step makes the copies of a selection and then takes the working copy past it. -/
theorem result_step (t : Transforming) (a : Selection Binary64) :
    (t.step a).result = (do
      let copies ← a.copies t.working
      let working ← a.settle t.working
      return ⟨working, t.placed || (t.copies.isEmpty && !a.isCollapsed), t.copies ++ copies,
        t.changes + a.changes⟩) := by
  cases hcollapsed : a.isCollapsed with
  | false =>
    have hdecision : a.set.decision.collapsed = false := hcollapsed
    rw [Selection.copies_plain _ hcollapsed, Selection.settle_plain _ hcollapsed,
      Selection.changes_plain hcollapsed, step, hdecision, if_neg Bool.false_ne_true,
      Logged.result_bind, Source.applyLogged, Logged.result_note_before, Logged.result_liftM,
      ok_bind, List.append_nil, Bool.not_false, Bool.and_true]
    rfl
  | true =>
    have hdecision : a.set.decision.collapsed = true := hcollapsed
    rw [Selection.settle_collapsed _ hcollapsed, Selection.changes_collapsed hcollapsed, step,
      hdecision, if_pos rfl, Selection.copies, if_pos hcollapsed]
    by_cases hmulti : t.working.isMultiSurface = true
    · rw [if_pos hmulti, if_pos hmulti]
      rfl
    · rw [if_neg hmulti, if_neg hmulti, Logged.result_bind, result_scaledCopies]
      simp only [ok_bind, List.length_map, Bool.not_true, Bool.and_false, Bool.or_false]
      rfl

end Transforming

namespace Source

theorem after_cons (w : Source) (a : Selection Binary64) (as : List (Selection Binary64)) :
    w.after (a :: as) = a.settle w >>= fun next => next.after as := rfl

/-- The parts of a source with one more selection in front. -/
theorem parts_cons (w : Source) (a : Selection Binary64) (as : List (Selection Binary64)) :
    w.parts (a :: as) = (do
      let copies ← a.copies w
      let next ← a.settle w
      let (last, more) ← next.parts as
      return (last, copies ++ more)) := by
  rw [parts, List.zipIdx_cons, List.zipIdx_succ, List.mapM_cons, List.mapM_map]
  simp only [List.take_zero, Function.comp_def, List.take_succ_cons, after_cons]
  change (a.copies w >>= _) >>= _ = _
  cases a.copies w with
  | error f => rfl
  | ok copies =>
    cases a.settle w with
    | error f =>
      cases as with
      | nil => rfl
      | cons b as => rw [List.zipIdx_cons, List.mapM_cons]; rfl
    | ok next =>
      simp only [ok_bind, parts]
      cases as.zipIdx.mapM fun x => do Selection.copies (← next.after (as.take x.2)) x.1 with
      | error f => rfl
      | ok more =>
        cases next.after as with
        | error f => rfl
        | ok last => rfl

end Source

namespace Selection

/-- A collapsed selection with branches adds copies. -/
theorem copies_ne_nil {a : Selection Binary64} {w : Source} {copies : List Source}
    (collapsed : a.isCollapsed = true) (populated : a.set.branches ≠ [])
    (h : a.copies w = .ok copies) : copies ≠ [] := by
  rw [Selection.copies, if_pos collapsed] at h
  split at h
  · cases h
  · cases hbranches : a.set.branches with
    | nil => exact absurd hbranches populated
    | cons b bs =>
      rw [hbranches] at h
      obtain ⟨first, rest, _, _, rfl⟩ := mapM_cons_eq_ok.mp h
      exact List.cons_ne_nil first rest

end Selection

namespace Transforming

/-- Once there are copies or the working copy is placed, later selections have no say in it. -/
theorem placed_cons {a : Selection Binary64} (as : List (Selection Binary64)) {w : Source}
    {copies : List Source} (populated : a.isCollapsed = true → a.set.branches ≠ [])
    (h : a.copies w = .ok copies) (placed : Bool) (before : List Source) :
    (placed || (before.isEmpty && !a.isCollapsed) ||
        ((before ++ copies).isEmpty && Selection.plainFirst as)) =
      (placed || (before.isEmpty && Selection.plainFirst (a :: as))) := by
  have hfirst : Selection.plainFirst (a :: as) = !a.isCollapsed := rfl
  rw [hfirst]
  cases hcollapsed : a.isCollapsed with
  | true =>
    have hsome := Selection.copies_ne_nil hcollapsed (populated hcollapsed) h
    have hempty : (before ++ copies).isEmpty = false := by simp [hsome]
    simp [hempty]
  | false =>
    rw [Selection.copies_plain w hcollapsed] at h
    cases h
    rw [List.append_nil]
    cases before.isEmpty <;> cases placed <;> cases Selection.plainFirst as <;> rfl

/-- A run from any state: the parts of its working copy are added. The working copy is placed if it
was, or if there are no copies yet and the first selection is plain. -/
theorem result_foldlM_step {as : List (Selection Binary64)}
    (populated : ∀ a ∈ as, a.isCollapsed = true → a.set.branches ≠ []) (t : Transforming) :
    (as.foldlM step t).result = (do
      let (last, copies) ← t.working.parts as
      return ⟨last, t.placed || (t.copies.isEmpty && Selection.plainFirst as), t.copies ++ copies,
        t.changes + (as.map (·.changes)).sum⟩) := by
  induction as generalizing t with
  | nil => simp [Source.parts, Source.after, Selection.plainFirst, pure_bind]; rfl
  | cons a as ih =>
    have hrest : ∀ a ∈ as, a.isCollapsed = true → a.set.branches ≠ [] :=
      fun b hb => populated b (List.mem_cons_of_mem a hb)
    rw [List.foldlM_cons, Logged.result_bind, result_step, Source.parts_cons]
    cases hcopies : a.copies t.working with
    | error f => rfl
    | ok copies =>
      cases a.settle t.working with
      | error f => rfl
      | ok next =>
        have hplaced := placed_cons as (populated a List.mem_cons_self) hcopies t.placed t.copies
        simp only [ok_bind, pure_bind, ih hrest, hplaced]
        cases next.parts as with
        | error f => rfl
        | ok parts => simp only [ok_bind, pure_bind, List.append_assoc, List.map_cons,
            List.sum_cons, Nat.add_assoc]

/-- A whole run on a source. -/
theorem result_foldlM_start {as : List (Selection Binary64)}
    (populated : ∀ a ∈ as, a.isCollapsed = true → a.set.branches ≠ []) (source : Source) :
    ((as.foldlM step (start source)).result >>= fun t => .ok (t.results, t.changes)) =
      source.outputs as >>= fun sources => .ok (sources, (as.map (·.changes)).sum) := by
  rw [result_foldlM_step populated, Source.outputs]
  change ((source.parts as >>= _) >>= _) = (source.parts as >>= _) >>= _
  cases source.parts as with
  | error f => rfl
  | ok parts =>
    obtain ⟨last, copies⟩ := parts
    simp only [ok_bind, start]
    cases Selection.plainFirst as <;> simp [results, pure, Except.pure, ok_bind]

end Transforming

/-- The selections that apply are found if all filters can be tested. -/
theorem applicable_eq (sels : List (Selection Binary64)) (source : Source) :
    applicable sels source = (do
      sels.forM fun a => discard (a.set.decision.applies source)
      return sels.filter (·.appliesTo source)) := by
  induction sels with
  | nil => rfl
  | cons a sels ih =>
    rw [applicable] at ih ⊢
    rw [List.filterMapM_cons, ih, List.forM, List.filter_cons, Selection.appliesTo]
    generalize (sels.forM fun a => discard (a.set.decision.applies source)) = rest
    cases a.set.decision.applies source with
    | error f => rfl
    | ok passed =>
      cases passed with
      | false => rfl
      | true =>
        cases rest with
        | error f => rfl
        | ok _ => rfl

/-- If selections apply, the source is run through them. -/
theorem result_transformSource_chosen {sels as : List (Selection Binary64)} {source : Source}
    (chosen : applicable sels source = .ok as) (some : as ≠ []) :
    (transformSource sels source).result =
      (as.foldlM Transforming.step (.start source)).result >>= fun t =>
        .ok (t.results, t.changes) := by
  rw [transformSource, Logged.result_bind, Logged.result_liftM, chosen, ok_bind]
  cases as with
  | nil => exact absurd rfl some
  | cons a as => exact Logged.result_bind _ _

theorem result_transformSource {sels : List (Selection Binary64)}
    (populated : ∀ a ∈ sels, a.isCollapsed = true → a.set.branches ≠ []) (source : Source) :
    (transformSource sels source).result = source.transformed sels := by
  have happlicable := applicable_eq sels source
  rw [Source.transformed]
  cases htested : sels.forM fun a => discard (a.set.decision.applies source) with
  | error f =>
    rw [htested] at happlicable
    rw [transformSource, Logged.result_bind, Logged.result_liftM, happlicable]
    rfl
  | ok _ =>
    have hsome : ∀ a ∈ sels.filter (·.appliesTo source),
        a.isCollapsed = true → a.set.branches ≠ [] :=
      fun a ha => populated a (List.mem_filter.mp ha).1
    rw [htested, ok_bind] at happlicable
    rw [ok_bind]
    cases hchosen : sels.filter (·.appliesTo source) with
    | nil =>
      rw [transformSource, Logged.result_bind, Logged.result_liftM, happlicable, hchosen]
      rfl
    | cons a as =>
      rw [hchosen] at happlicable hsome
      rw [result_transformSource_chosen happlicable (List.cons_ne_nil a as)]
      exact Transforming.result_foldlM_start hsome source

theorem transformSources_cons_eq_ok {sels : List (Selection Binary64)} {source : Source}
    {rest : List Source} {r : List Source × Nat} :
    (transformSources sels (source :: rest)).result = .ok r ↔
      ∃ outs n others m, (transformSource sels source).result = .ok (outs, n) ∧
        (transformSources sels rest).result = .ok (others, m) ∧ r = (outs ++ others, n + m) := by
  rw [transformSources, Logged.result_bind, bind_eq_ok]
  constructor
  · rintro ⟨⟨outs, n⟩, hfirst, h⟩
    rw [Logged.result_bind, bind_eq_ok] at h
    obtain ⟨⟨others, m⟩, hrest, h⟩ := h
    cases h
    exact ⟨outs, n, others, m, hfirst, hrest, rfl⟩
  · rintro ⟨outs, n, others, m, hfirst, hrest, rfl⟩
    refine ⟨(outs, n), hfirst, ?_⟩
    rw [Logged.result_bind, hrest]
    rfl

theorem applySelections_eq_ok {sels : List (Selection Binary64)} {g g' : SourceGroup} :
    (applySelections sels g).result = .ok g' ↔
      ∃ sources changes, (transformSources sels g.sources).result = .ok (sources, changes) ∧
        g' = { g with sources, changes } := by
  rw [applySelections, Logged.result_timed, Logged.result_bind, bind_eq_ok]
  constructor
  · rintro ⟨⟨sources, changes⟩, hall, h⟩
    cases h
    exact ⟨sources, changes, hall, rfl⟩
  · rintro ⟨sources, changes, hall, rfl⟩
    exact ⟨(sources, changes), hall, rfl⟩

/-- Sources are transformed apart from each other, in their order. -/
theorem result_transformSources_mapM (sels : List (Selection Binary64)) (sources : List Source) :
    (transformSources sels sources).result = (do
      let results ← sources.mapM fun s => (transformSource sels s).result
      return ((results.map (·.1)).flatten, (results.map (·.2)).sum)) := by
  induction sources with
  | nil => rfl
  | cons source sources ih =>
    rw [transformSources, Logged.result_bind, List.mapM_cons]
    cases (transformSource sels source).result with
    | error f => rfl
    | ok first =>
      simp only [ok_bind, Logged.result_bind, ih]
      cases sources.mapM fun s => (transformSource sels s).result with
      | error f => rfl
      | ok rest => rfl

theorem result_transformSources {sels : List (Selection Binary64)}
    (populated : ∀ a ∈ sels, a.isCollapsed = true → a.set.branches ≠ []) (sources : List Source) :
    (transformSources sels sources).result = (do
      let results ← sources.mapM (Source.transformed sels)
      return ((results.map (·.1)).flatten, (results.map (·.2)).sum)) := by
  have hone : (fun s => (transformSource sels s).result) = Source.transformed sels :=
    funext fun s => result_transformSource populated s
  rw [result_transformSources_mapM, hone]

theorem result_applySelections {sels : List (Selection Binary64)}
    (populated : ∀ a ∈ sels, a.isCollapsed = true → a.set.branches ≠ []) (group : SourceGroup) :
    (applySelections sels group).result = group.transformed sels := by
  rw [applySelections, Logged.result_timed, Logged.result_bind, result_transformSources populated,
    SourceGroup.transformed]
  cases group.sources.mapM (Source.transformed sels) with
  | error f => rfl
  | ok results => rfl

namespace Selection

theorem refuses_iff {a : Selection Binary64} {w : Source} :
    a.Refuses w ↔ Fails (a.copies w) ∨ Fails (a.settle w) := by
  cases hcollapsed : a.isCollapsed with
  | false =>
    rw [Refuses, copies_plain w hcollapsed, settle_plain w hcollapsed, hcollapsed,
      if_neg Bool.false_ne_true]
    exact ⟨Or.inr, fun h => h.resolve_left (not_fails_ok _)⟩
  | true =>
    rw [Refuses, settle_collapsed w hcollapsed, Selection.copies, hcollapsed, if_pos rfl,
      if_pos rfl]
    by_cases hmulti : w.isMultiSurface = true
    · rw [if_pos hmulti]
      exact ⟨fun _ => Or.inl (fails_error _), fun _ => Or.inl hmulti⟩
    · rw [if_neg hmulti, fails_mapM]
      exact ⟨fun h => Or.inl (h.resolve_left hmulti),
        fun h => Or.inr (h.resolve_right (not_fails_ok _))⟩

end Selection

namespace Source

/-- The parts cannot be had if a selection refuses the working copy at its place. -/
theorem fails_parts {w : Source} {as : List (Selection Binary64)} :
    Fails (w.parts as) ↔
      ∃ j a w', as[j]? = some a ∧ w.after (as.take j) = .ok w' ∧ a.Refuses w' := by
  induction as generalizing w with
  | nil => simp [parts, after, not_fails_ok, pure, Except.pure, ok_bind]
  | cons a as ih =>
    rw [parts_cons]
    constructor
    · intro h
      rcases fails_bind.mp h with hcopies | ⟨copies, _, h⟩
      · exact ⟨0, a, w, rfl, rfl, Selection.refuses_iff.mpr (Or.inl hcopies)⟩
      rcases fails_bind.mp h with hsettle | ⟨next, hnext, h⟩
      · exact ⟨0, a, w, rfl, rfl, Selection.refuses_iff.mpr (Or.inr hsettle)⟩
      obtain ⟨j, a', w', ha', hw', hrefuses⟩ := ih.mp (fails_bind_ok.mp h)
      refine ⟨j + 1, a', w', ha', ?_, hrefuses⟩
      rw [List.take_succ_cons, after_cons, hnext]
      exact hw'
    · rintro ⟨j, a', w', ha', hw', hrefuses⟩
      cases j with
      | zero =>
        cases ha'
        cases hw'
        rw [fails_bind]
        rcases Selection.refuses_iff.mp hrefuses with hcopies | hsettle
        · exact Or.inl hcopies
        · cases a.copies w with
          | error f => exact Or.inl (fails_error f)
          | ok copies => exact Or.inr ⟨copies, rfl, fails_bind.mpr (Or.inl hsettle)⟩
      | succ j =>
        rw [List.take_succ_cons, after_cons] at hw'
        obtain ⟨next, hnext, hw'⟩ := bind_eq_ok.mp hw'
        have hrest := ih.mpr ⟨j, a', w', ha', hw', hrefuses⟩
        rw [fails_bind, hnext]
        cases a.copies w with
        | error f => exact Or.inl (fails_error f)
        | ok copies => exact Or.inr ⟨copies, rfl, fails_bind_ok.mpr hrest⟩

theorem fails_outputs {w : Source} {as : List (Selection Binary64)} :
    Fails (w.outputs as) ↔ Fails (w.parts as) := fails_bind_ok

theorem fails_transformed {sels : List (Selection Binary64)} {source : Source} :
    Fails (source.transformed sels) ↔ source.Troubled sels := by
  have hrest : Fails (match sels.filter (·.appliesTo source) with
      | [] => return ([source], 0)
      | as => return (← source.outputs as, (as.map (·.changes)).sum) :
        Except Failure (List Source × Nat)) ↔
      Fails (source.parts (sels.filter (·.appliesTo source))) := by
    cases sels.filter (·.appliesTo source) with
    | nil => exact ⟨fun h => absurd h (not_fails_ok _), fun h => absurd h (not_fails_ok _)⟩
    | cons a as => exact fails_bind_ok.trans fails_outputs
  rw [transformed, Troubled, ← fails_parts, ← fails_forM, fails_bind]
  constructor
  · rintro (h | ⟨_, _, h⟩)
    · exact Or.inl h
    · exact Or.inr (hrest.mp h)
  · rintro (h | h)
    · exact Or.inl h
    · cases sels.forM fun a => discard (a.set.decision.applies source) with
      | error f => exact Or.inl (fails_error f)
      | ok _ => exact Or.inr ⟨⟨⟩, rfl, hrest.mpr h⟩

end Source

/-- What selections make of a group, and when they cannot be applied to it. -/
theorem applySelections_closedForm {sels : List (Selection Binary64)}
    (populated : ∀ a ∈ sels, a.isCollapsed = true → a.set.branches ≠ []) (group : SourceGroup) :
    (applySelections sels group).result = group.transformed sels ∧
      (Fails (applySelections sels group).result ↔
        ∃ source ∈ group.sources, source.Troubled sels) := by
  have hresult := result_applySelections populated group
  refine ⟨hresult, ?_⟩
  rw [hresult, SourceGroup.transformed]
  refine (fails_bind_ok.trans fails_mapM).trans ?_
  simp only [Source.fails_transformed]

def Source.pointOf (id : String) (maxMag slope rate : Binary64) : Source where
  id := id
  name := ""
  region := "Active Shallow Crust"
  mfd := some (.gutenbergRichter ⟨5, maxMag, 1, 2, slope⟩)
  scalingRate := rate
  body := .point ⟨0, 0, 0⟩ 0 10

namespace Selection

def bounds (maxMag : Binary64) (filters : Filters) : Selection Binary64 where
  set := .mk ⟨.maxMagGRAbsolute, "bounds", filters, false⟩ [.mk ⟨"m1", 1, .number maxMag⟩ none]
  value := .number maxMag

def slopes (filters : Filters) : Selection Binary64 where
  set := .mk ⟨.bGRRelative, "slopes", filters, true⟩
    [.mk ⟨"b1", 0.25, .number 1⟩ none, .mk ⟨"b2", 0.75, .number 2⟩ none]
  value := .number 1

end Selection

def SourceGroup.points : SourceGroup where
  region := "Active Shallow Crust"
  name := ""
  sources := [.pointOf "p1" 6 1 1, .pointOf "p2" 6 1 1, .pointOf "p3" 6 1 1]
  changes := 0

def Selection.forPoints : List (Selection Binary64) :=
  [.bounds 7 ⟨[("applyToSources", "p1")]⟩, .slopes ⟨[("applyToSources", "p1 p2")]⟩]

theorem applySelections_closedForm_points :
    (∀ a ∈ Selection.forPoints, a.isCollapsed = true → a.set.branches ≠ []) ∧
      (applySelections Selection.forPoints .points).result =
        SourceGroup.points.transformed Selection.forPoints ∧
      (applySelections Selection.forPoints .points).result.toOption =
        some ⟨"Active Shallow Crust", "",
          [.pointOf "p1" 7 1 1, .pointOf "p1" 7 2 0.25, .pointOf "p1" 7 3 0.75,
            .pointOf "p2" 6 2 0.25, .pointOf "p2" 6 3 0.75, .pointOf "p3" 6 1 1], 5⟩ := by
  have populated : ∀ a ∈ Selection.forPoints, a.isCollapsed = true → a.set.branches ≠ [] := by
    simp [Selection.forPoints, Selection.bounds, Selection.slopes]
  have hresult := (applySelections_closedForm populated .points).1
  refine ⟨populated, hresult, ?_⟩
  decide +kernel

end SeismicTree

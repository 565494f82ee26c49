import SeismicTree.Proofs.Transformation
import Mathlib.Data.List.Forall2

/-!
# A collapsed selection among plain ones

The copies that a collapsed selection makes carry all plain selections in front of it and one of its
branches each. A plain selection behind it reaches the working copy alone, and the working copy is
among the results only if a plain selection made it so. It is not claimed that every selection
reaches every result, or that there is one result for each branch: neither holds.
-/

namespace SeismicTree

namespace Source

theorem modify_eq_ok {s s' : Source} {change : SourceChange}
    (h : s.modify change = .ok s') : ∃ body, s' = { s with body } := by
  rw [modify] at h
  have h := mapError_eq_ok.mp h
  split at h
  · obtain ⟨body, _, rfl⟩ := map_eq_ok.mp h
    exact ⟨body, rfl⟩
  · cases h

theorem modifyMfd_eq_ok {s s' : Source} {change : MfdChange}
    (h : s.modifyMfd change = .ok s') : ∃ m, s' = { s with mfd := some m } := by
  rw [modifyMfd] at h
  split at h
  · obtain ⟨m, _, rfl⟩ := map_eq_ok.mp h
    exact ⟨m, rfl⟩
  · cases h

theorem carryOut_eq_ok {s s' : Source} {m : Modification}
    (h : s.carryOut m = .ok s') : ∃ mfd body, s' = { s with mfd, body } := by
  cases m with
  | ofSource change =>
    obtain ⟨body, rfl⟩ := modify_eq_ok h
    exact ⟨s.mfd, body, rfl⟩
  | ofMfd change =>
    obtain ⟨m, rfl⟩ := modifyMfd_eq_ok h
    exact ⟨some m, s.body, rfl⟩

/-- No value changes more of a source than its distribution and its body. -/
theorem apply_eq_ok {u : Uncertainty} {value : UncertaintyValue} {s s' : Source}
    (h : s.apply u value = .ok s') : ∃ mfd body, s' = { s with mfd, body } := by
  rw [apply] at h
  split at h
  · split at h
    · exact carryOut_eq_ok (mapError_eq_ok.mp h)
    · cases h
  · cases h

theorem scalingRate_apply {u : Uncertainty} {value : UncertaintyValue} {s s' : Source}
    (h : s.apply u value = .ok s') : s'.scalingRate = s.scalingRate := by
  obtain ⟨_, _, rfl⟩ := apply_eq_ok h
  rfl

theorem settle_eq_ok {w w' : Source} {a : Selection Binary64} (h : a.settle w = .ok w') :
    ∃ mfd body, w' = { w with mfd, body } := by
  rw [Selection.settle] at h
  split at h
  · cases h
    exact ⟨_, _, rfl⟩
  · exact apply_eq_ok h

/-- No selections change more of a working copy than its distribution and its body. -/
theorem after_eq_ok {w w' : Source} {as : List (Selection Binary64)} (h : w.after as = .ok w') :
    ∃ mfd body, w' = { w with mfd, body } := by
  induction as generalizing w with
  | nil =>
    cases h
    exact ⟨_, _, rfl⟩
  | cons a as ih =>
    rw [after_cons] at h
    obtain ⟨next, hnext, h⟩ := bind_eq_ok.mp h
    obtain ⟨_, _, rfl⟩ := settle_eq_ok hnext
    obtain ⟨mfd, body, rfl⟩ := ih h
    exact ⟨mfd, body, rfl⟩

theorem scalingRate_after {w w' : Source} {as : List (Selection Binary64)}
    (h : w.after as = .ok w') : w'.scalingRate = w.scalingRate := by
  obtain ⟨_, _, rfl⟩ := after_eq_ok h
  rfl

/-- Plain selections make no copies. -/
theorem parts_plain {as : List (Selection Binary64)} (plain : ∀ a ∈ as, a.isCollapsed = false)
    (w : Source) : w.parts as = w.after as >>= fun last => .ok (last, []) := by
  induction as generalizing w with
  | nil => rfl
  | cons a as ih =>
    have hfirst := plain a List.mem_cons_self
    have hrest := ih fun b hb => plain b (List.mem_cons_of_mem a hb)
    rw [parts_cons, after_cons, Selection.copies_plain w hfirst, ok_bind]
    cases a.settle w with
    | error f => rfl
    | ok next =>
      rw [ok_bind, ok_bind, hrest]
      cases next.after as with
      | error f => rfl
      | ok last => rfl

end Source

/-- Every plain selection is one change. -/
theorem Selection.sum_changes_plain {as : List (Selection Binary64)}
    (plain : ∀ a ∈ as, a.isCollapsed = false) : (as.map (·.changes)).sum = as.length := by
  have hone : as.map (·.changes) = as.map fun _ => 1 :=
    List.map_congr_left fun a ha => changes_plain (plain a ha)
  rw [hone, List.map_const', List.sum_replicate_nat, Nat.mul_one]

/-- The copies of a collapsed selection, one for each branch. -/
theorem Selection.copies_eq_ok {a : Selection Binary64} {w : Source} {copies : List Source}
    (collapsed : a.isCollapsed = true) (h : a.copies w = .ok copies) :
    List.Forall₂ (fun b c => c.scalingRate = b.weight ∧
      Source.apply a.set.decision.uncertainty b.value { w with scalingRate := b.weight } = .ok c)
        a.set.branches copies := by
  rw [Selection.copies, if_pos collapsed] at h
  split at h
  · cases h
  · exact (mapM_eq_ok h).imp fun b c hc => ⟨Source.scalingRate_apply hc, hc⟩

namespace Transforming

/-- A run of plain selections only takes the working copy further. -/
theorem result_foldlM_plain {as : List (Selection Binary64)}
    (plain : ∀ a ∈ as, a.isCollapsed = false) {t t' : Transforming}
    (h : (as.foldlM step t).result = .ok t') :
    t.working.after as = .ok t'.working ∧ t'.copies = t.copies ∧
      t'.placed = (t.placed || (t.copies.isEmpty && !as.isEmpty)) ∧
      t'.changes = t.changes + as.length := by
  rw [result_foldlM_step (Selection.populated_of_plain plain), Source.parts_plain plain] at h
  obtain ⟨⟨last, copies⟩, hparts, h⟩ := bind_eq_ok.mp h
  obtain ⟨last', hlast, hparts⟩ := bind_eq_ok.mp hparts
  cases hparts
  cases h
  refine ⟨hlast, List.append_nil _, ?_, ?_⟩
  · cases as with
    | nil => rfl
    | cons a as => simp [Selection.plainFirst, plain a List.mem_cons_self]
  · exact congrArg (t.changes + ·) (Selection.sum_changes_plain plain)

/-- A run through one collapsed selection among plain ones. -/
theorem result_foldlM_among_plain {before behind : List (Selection Binary64)}
    {a : Selection Binary64} {source : Source} {t : Transforming}
    (plainBefore : ∀ p ∈ before, p.isCollapsed = false) (collapsed : a.isCollapsed = true)
    (plainBehind : ∀ p ∈ behind, p.isCollapsed = false)
    (h : ((before ++ a :: behind).foldlM step (start source)).result = .ok t) :
    ∃ w, source.after before = .ok w ∧ w.after behind = .ok t.working ∧
      a.copies w = .ok t.copies ∧
      t.placed = (!before.isEmpty || (t.copies.isEmpty && !behind.isEmpty)) ∧
      t.changes = before.length + a.set.branches.length + behind.length := by
  rw [Logged.result_foldlM, List.foldlM_append] at h
  obtain ⟨t₁, hbefore, h⟩ := bind_eq_ok.mp h
  rw [List.foldlM_cons, result_step, Selection.settle_collapsed _ collapsed] at h
  obtain ⟨t₂, hstep, hbehind⟩ := bind_eq_ok.mp h
  obtain ⟨copies, hmade, hstep⟩ := bind_eq_ok.mp hstep
  rw [← Logged.result_foldlM] at hbefore hbehind
  obtain ⟨hw, hcopies₁, hplaced₁, hchanges₁⟩ := result_foldlM_plain plainBefore hbefore
  obtain ⟨hlast, hcopies, hplaced, hchanges⟩ := result_foldlM_plain plainBehind hbehind
  have hnone : t₁.copies = [] := hcopies₁
  have hfront : t₁.placed = !before.isEmpty := by simpa [start] using hplaced₁
  have hcount : t₁.changes = before.length := by simpa [start] using hchanges₁
  rw [hnone, hfront, hcount, collapsed, Selection.changes_collapsed collapsed] at hstep
  cases hstep
  have hall : t.copies = copies := hcopies
  refine ⟨t₁.working, hw, hlast, ?_, ?_, hchanges⟩
  · rw [hall]
    exact hmade
  · rw [hplaced, hall]
    simp

end Transforming

section Around
variable {sels before behind : List (Selection Binary64)} {a : Selection Binary64}
variable {source : Source}

/-- One collapsed selection among plain ones. There is a copy for each of its branches, scaled by
the weight of the branch; it carries the plain selections in front and the value of the branch. The
working copy carries all plain selections and keeps its scaling rate, and it comes before the copies
if there is a plain selection in front. -/
theorem transformSource_among_plain {outs : List Source} {n : Nat}
    (chosen : applicable sels source = .ok (before ++ a :: behind))
    (plainBefore : ∀ p ∈ before, p.isCollapsed = false) (collapsed : a.isCollapsed = true)
    (plainBehind : ∀ p ∈ behind, p.isCollapsed = false)
    (h : (transformSource sels source).result = .ok (outs, n)) :
    ∃ w last copies, source.after before = .ok w ∧ w.after behind = .ok last ∧
      last.scalingRate = source.scalingRate ∧
      List.Forall₂ (fun b c => c.scalingRate = b.weight ∧
        Source.apply a.set.decision.uncertainty b.value { w with scalingRate := b.weight } = .ok c)
          a.set.branches copies ∧
      outs = (if before ≠ [] ∨ a.set.branches = [] ∧ behind ≠ [] then [last] else []) ++ copies ∧
      n = before.length + a.set.branches.length + behind.length := by
  have hsome : before ++ a :: behind ≠ [] := by simp
  rw [result_transformSource_chosen chosen hsome] at h
  obtain ⟨t, hrun, h⟩ := bind_eq_ok.mp h
  cases h
  obtain ⟨w, hw, hlast, hmade, hplaced, hchanges⟩ :=
    Transforming.result_foldlM_among_plain plainBefore collapsed plainBehind hrun
  have hbranches := Selection.copies_eq_ok collapsed hmade
  have hempty : t.copies = [] ↔ a.set.branches = [] := by
    rw [← List.length_eq_zero_iff, ← List.length_eq_zero_iff, hbranches.length_eq]
  refine ⟨w, t.working, t.copies, hw, hlast, ?rate, hbranches, ?outs, hchanges⟩
  case rate => rw [Source.scalingRate_after hlast, Source.scalingRate_after hw]
  case outs =>
    have hfirst : t.placed = true ↔ before ≠ [] ∨ a.set.branches = [] ∧ behind ≠ [] := by
      rw [hplaced, ← hempty]
      simp
    rw [Transforming.results]
    by_cases hfront : t.placed = true
    · rw [if_pos hfront, if_pos (hfirst.mp hfront), List.singleton_append]
    · rw [if_neg hfront, if_neg fun h => hfront (hfirst.mpr h), List.nil_append]

end Around

theorem transformSource_among_plain_point :
    ∃ w last copies,
      (transformSource [.bounds 7 .empty, .slopes .empty, .bounds 8 .empty]
        (.pointOf "p1" 6 1 1)).result =
          .ok ([.pointOf "p1" 8 1 1, .pointOf "p1" 7 2 0.25, .pointOf "p1" 7 3 0.75], 4) ∧
      Source.after (.pointOf "p1" 6 1 1) [.bounds 7 .empty] = .ok w ∧
      w.after [.bounds 8 .empty] = .ok last ∧ last.scalingRate = 1 ∧
      [.pointOf "p1" 8 1 1, .pointOf "p1" 7 2 0.25, .pointOf "p1" 7 3 0.75] =
        [last] ++ copies := by
  have plain : ∀ maxMag, ∀ p ∈ [Selection.bounds maxMag .empty], p.isCollapsed = false := by
    simp [Selection.bounds, Selection.isCollapsed]
  have chosen : applicable [.bounds 7 .empty, .slopes .empty, .bounds 8 .empty]
      (.pointOf "p1" 6 1 1) =
        .ok ([.bounds 7 .empty] ++ .slopes .empty :: [.bounds 8 .empty]) := rfl
  have hrun : (transformSource [.bounds 7 .empty, .slopes .empty, .bounds 8 .empty]
      (.pointOf "p1" 6 1 1)).result.toOption =
        some ([.pointOf "p1" 8 1 1, .pointOf "p1" 7 2 0.25, .pointOf "p1" 7 3 0.75], 4) := by
    decide +kernel
  have hresult := toOption_eq_some.mp hrun
  obtain ⟨w, last, copies, hw, hlast, hrate, _, houts, _⟩ :=
    transformSource_among_plain chosen (plain 7) rfl (plain 8) hresult
  exact ⟨w, last, copies, hresult, hw, hlast, hrate, houts⟩

/-- What would hold if every selection reached every result: with one collapsed selection among
plain ones there is one result for each of its branches, scaled by its weight, and each carries
all selections in their order. -/
def Carried (sels : List (Selection Binary64)) (source : Source) : Prop :=
  ∀ before a behind outs n, applicable sels source = .ok (before ++ a :: behind) →
    (∀ p ∈ before, p.isCollapsed = false) → a.isCollapsed = true →
    (∀ p ∈ behind, p.isCollapsed = false) →
    (transformSource sels source).result = .ok (outs, n) →
      List.Forall₂ (fun b c => c.scalingRate = b.weight ∧
        (do
          let w ← source.after before
          let scaled ← Source.apply a.set.decision.uncertainty b.value
            { w with scalingRate := b.weight }
          scaled.after behind) = .ok c) a.set.branches outs

/-- A plain selection in front brings one more result, and one behind reaches none of them. -/
theorem not_carried :
    ¬ Carried [.bounds 7 .empty, .slopes .empty] (.pointOf "p1" 6 1 1) ∧
      ¬ Carried [.slopes .empty, .bounds 7 .empty] (.pointOf "p1" 6 1 1) := by
  have plain : ∀ p ∈ [Selection.bounds 7 .empty], p.isCollapsed = false := by
    simp [Selection.bounds, Selection.isCollapsed]
  constructor
  · intro carried
    have hrun : (transformSource [.bounds 7 .empty, .slopes .empty]
        (.pointOf "p1" 6 1 1)).result.toOption =
          some ([.pointOf "p1" 7 1 1, .pointOf "p1" 7 2 0.25, .pointOf "p1" 7 3 0.75], 3) := by
      decide +kernel
    have hall := carried [.bounds 7 .empty] (.slopes .empty) [] _ _ rfl plain rfl (by simp)
      (toOption_eq_some.mp hrun)
    exact absurd hall.length_eq (by decide)
  · intro carried
    have hrun : (transformSource [.slopes .empty, .bounds 7 .empty]
        (.pointOf "p1" 6 1 1)).result.toOption =
          some ([.pointOf "p1" 6 2 0.25, .pointOf "p1" 6 3 0.75], 3) := by
      decide +kernel
    have hall := carried [] (.slopes .empty) [.bounds 7 .empty] _ _ rfl (by simp) rfl plain
      (toOption_eq_some.mp hrun)
    cases hall with
    | cons hfirst _ => exact absurd (toOption_eq_some.mpr hfirst.2) (by decide +kernel)

end SeismicTree

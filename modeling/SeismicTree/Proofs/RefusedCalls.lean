import SeismicTree.Proofs.Results
import SeismicTree.Proofs.WriterCalls

/-!
# Refused calls

A refused call leaves the writer as it was, and then no later call can tell that it was made. There
are two exceptions, both of them elements without a name. A root without a name uses up the right to
a root, and a child without a name ends the start tag of its parent, which then takes no attributes
any more. Each is noticed by a later call.
-/

namespace SeismicTree.Writer
open Markup

/-- The outcomes of calls in a row, each with the text that has been written by then. -/
def transcript (w : Writer) (calls : List Call) : List (Except Failure Unit × List Char) :=
  (w.afterAll calls).map fun step => (step.1, step.2.written)

/-- Nothing is written by the call, and calls behind it have the outcomes and the text that they
would have without it. -/
def Unnoticed (w : Writer) (call : Call) : Prop :=
  (w.after call).2.written = w.written ∧
    ∀ later, (w.after call).2.transcript later = w.transcript later

/-- The call asks for an element without a name: for the root while there is none, or for a child
of an active element whose start tag has not ended. -/
def OpensNameless (w : Writer) : Call → Prop
  | .addRoot name => Text.untilNul name = [] ∧ w.rooted = false
  | .addChild depth name =>
    Text.untilNul name = [] ∧ w.isActive depth = true ∧
      (w.elementAt? depth).any (·.phase = .attributes) = true
  | _ => False

variable {w : Writer} {call : Call}

/-- A check in front of a call leaves the writer as it is. -/
theorem snd_check {c : Prop} [Decidable c] {f : Failure} {rest : Except Failure Unit × Writer}
    (h : Fails (if c then (.error f, w) else rest).1) (hrest : ¬ c → Fails rest.1 → rest.2 = w) :
    (if c then (.error f, w) else rest).2 = w := by
  by_cases hc : c
  · rw [if_pos hc]
  · rw [if_neg hc] at h ⊢
    exact hrest hc h

/-- Refused calls other than those for elements without a name change nothing. -/
theorem after_eq_of_fails (h : Fails (w.after call).1) (named : ¬ w.OpensNameless call) :
    (w.after call).2 = w := by
  cases call with
  | addRoot name =>
    rw [after_addRoot] at h ⊢
    refine snd_check h fun hrooted h => ?_
    by_cases hempty : (Text.untilNul name).isEmpty = true
    · exact absurd ⟨List.isEmpty_iff.mp hempty, Bool.eq_false_iff.mpr hrooted⟩ named
    · rw [if_neg hempty] at h
      exact absurd h (not_fails_ok ())
  | addChild depth name =>
    rw [after_addChild] at h ⊢
    refine snd_check h fun htext h => snd_check h fun hinactive h => ?_
    by_cases hempty : (Text.untilNul name).isEmpty = true
    · have hactive : w.isActive depth = true := by simpa using hinactive
      obtain ⟨e, hat, _⟩ := (Option.any_eq_true _ _).mp hactive
      rw [if_pos hempty]
      refine opened_of_elements hat ?_
      cases hphase : e.phase with
      | attributes =>
        exact absurd ⟨List.isEmpty_iff.mp hempty, hactive, by simp [hat, hphase]⟩ named
      | elements => rfl
      | text => exact absurd (by simp [hat, hphase]) htext
    · rw [if_neg hempty] at h
      exact absurd h (not_fails_ok ())
  | addAttribute depth name value =>
    rw [after_addAttribute] at h ⊢
    refine snd_check h fun _ h => snd_check h fun _ h => snd_check h fun _ h => ?_
    exact absurd h (not_fails_ok ())
  | addText depth value =>
    rw [after_addText] at h ⊢
    refine snd_check h fun _ h => snd_check h fun _ h => ?_
    exact absurd h (not_fails_ok ())
  | close => exact absurd h (not_fails_ok ())
  | move => exact absurd h (not_fails_ok ())
  | moveAt depth => exact absurd h (not_fails_ok ())

/-- The outcome of the first of later calls is seen. -/
theorem Unnoticed.outcome_eq (h : w.Unnoticed call) (later : Call) :
    ((w.after call).2.after later).1 = (w.after later).1 := by
  have hone := h.2 [later]
  simp only [transcript, afterAll, List.map_cons, List.cons.injEq, Prod.mk.injEq] at hone
  exact hone.1.1

/-- A root without a name is noticed by the next call for a root. -/
theorem not_unnoticed_addRoot {name : String} (h : w.OpensNameless (.addRoot name)) :
    ¬ w.Unnoticed (.addRoot name) := by
  obtain ⟨hempty, hrooted⟩ := h
  intro hunnoticed
  have hleft : (w.after (.addRoot name)).2 = { w with rooted := true } := by
    rw [after_addRoot, if_neg (by simp [hrooted]), if_pos (by simp [hempty])]
  have hwithout : (w.after (.addRoot "a")).1 = .ok () := by
    rw [after_addRoot, if_neg (by simp [hrooted]), if_neg (by decide)]
  have hnext := hunnoticed.outcome_eq (.addRoot "a")
  rw [hleft, hwithout, after_addRoot, if_pos rfl] at hnext
  cases hnext

/-- A child without a name is noticed by the next attribute of its parent. -/
theorem not_unnoticed_addChild {depth : Nat} {name : String}
    (h : w.OpensNameless (.addChild depth name)) : ¬ w.Unnoticed (.addChild depth name) := by
  obtain ⟨hempty, hactive, hphase⟩ := h
  intro hunnoticed
  obtain ⟨e, hat, he⟩ := (Option.any_eq_true _ _).mp hactive
  have hattributes : e.phase = .attributes := by simpa [hat] using hphase
  have hleft : (w.after (.addChild depth name)).2 = w.opened depth := by
    rw [after_addChild, if_neg (by simp [hat, hattributes]), if_neg (by simp [hactive]),
      if_pos (by simp [hempty])]
  have hwithout : (w.after (.addAttribute depth "a" (.flag true))).1 = .ok () := by
    rw [after_addAttribute, if_neg (by simp [hactive]), if_neg (by simp [hphase]),
      if_neg (by decide)]
  have hat' : (w.opened depth).elementAt? depth = some { e with phase := .elements } := by
    rw [opened, enter, elementAt?_changeAt, elementAt?_emit, hat, Option.map_some]
  have hactive' : (w.opened depth).isActive depth = true := by simp [isActive, hat', he]
  have hnext := hunnoticed.outcome_eq (.addAttribute depth "a" (.flag true))
  rw [hleft, hwithout, after_addAttribute, if_neg (by simp [hactive']),
    if_pos (by simp [hat'])] at hnext
  cases hnext

/-- A refused call goes unnoticed exactly if it does not ask for an element without a name where
that element could have been opened. -/
theorem unnoticed_iff_of_fails (h : Fails (w.after call).1) :
    w.Unnoticed call ↔ ¬ w.OpensNameless call := by
  constructor
  · intro hunnoticed hnameless
    cases call with
    | addRoot name => exact not_unnoticed_addRoot hnameless hunnoticed
    | addChild depth name => exact not_unnoticed_addChild hnameless hunnoticed
    | addAttribute depth name value => exact hnameless
    | addText depth value => exact hnameless
    | close => exact hnameless
    | move => exact hnameless
    | moveAt depth => exact hnameless
  · intro hnamed
    rw [Unnoticed, after_eq_of_fails h hnamed]
    exact ⟨rfl, fun _ => rfl⟩

theorem unnoticed_attribute_of_parent :
    Fails (((begin true .accepting).run [.addRoot "r", .addChild 0 "c"]).after
        (.addAttribute 0 "a" (.text "x"))).1 ∧
      ((begin true .accepting).run [.addRoot "r", .addChild 0 "c"]).Unnoticed
        (.addAttribute 0 "a" (.text "x")) := by
  have hfails : Fails (((begin true .accepting).run [.addRoot "r", .addChild 0 "c"]).after
      (.addAttribute 0 "a" (.text "x"))).1 := ⟨_, rfl⟩
  exact ⟨hfails, (unnoticed_iff_of_fails hfails).mpr id⟩

/-- A child without a name is refused, and still ends the start tag of the root. -/
theorem nameless_child_written :
    ((begin true .accepting).run [.addRoot "r"]).after (.addChild 0 "") =
        (.error (refusal .emptyElementName),
          (((begin true .accepting).run [.addRoot "r"]).emit ">\n".toList).enter 0 .elements) ∧
      (((begin true .accepting).run [.addRoot "r", .addChild 0 ""]).after
        (.addAttribute 0 "a" (.flag true))).1 = .error (refusal .lateAttribute) ∧
      (((begin true .accepting).run [.addRoot "r"]).after
        (.addAttribute 0 "a" (.flag true))).1 = .ok () :=
  ⟨rfl, rfl, rfl⟩

end SeismicTree.Writer

import SeismicTree.Markup.Call

/-!
# What a call on a writer does

One equation for each kind of call: in which order it is refused for what, and the writer that it
leaves behind in each case. A call that succeeds was made on an active element. While no element but
the innermost one is active, that is the innermost one.
-/

namespace SeismicTree.Writer
open Markup

def refusal (fault : StreamFault) : Failure := { cause := .stream fault }

section Runs
variable {α β : Type} (w : Writer)

theorem run_get_bind (f : Writer → Writing β) : (get >>= f).run w = (f w).run w := rfl

theorem run_set_bind (w' : Writer) (f : PUnit → Writing β) :
    (set w' >>= f).run w = (f ⟨⟩).run w' := rfl

theorem run_refuse_bind (fault : StreamFault) (f : α → Writing β) :
    (refuse fault >>= f).run w = (.error (refusal fault), w) := rfl

theorem run_set (w' : Writer) : (set w' : Writing PUnit).run w = (.ok ⟨⟩, w') := rfl

theorem run_modify (f : Writer → Writer) :
    (modify f : Writing PUnit).run w = (.ok ⟨⟩, f w) := rfl

theorem run_ite (c : Prop) [Decidable c] (x y : Writing β) :
    (if c then x else y).run w = if c then x.run w else y.run w := by
  split <;> rfl

end Runs

section Calls
variable (w : Writer) (depth : Nat) (name : String) (value : Value)

theorem after_addRoot :
    w.after (.addRoot name) =
      if w.rooted then (.error (refusal .secondRoot), w)
      else if (Text.untilNul name).isEmpty then
        (.error (refusal .emptyElementName), { w with rooted := true })
      else (.ok (), Writer.start { w with rooted := true } (Text.untilNul name)) := by
  simp only [after, perform, addRoot, run_get_bind, run_ite, run_set_bind, run_refuse_bind,
    run_modify]

/-- The writer with the start tag of the element at a depth ended for a child. -/
def opened : Writer := (w.emit (w.endOfTag depth ">\n")).enter depth .elements

theorem after_addChild :
    w.after (.addChild depth name) =
      if (w.elementAt? depth).any (·.phase = .text) then (.error (refusal .lateElement), w)
      else if !w.isActive depth then (.error (refusal .inactive), w)
      else if (Text.untilNul name).isEmpty then (.error (refusal .emptyElementName), w.opened depth)
      else (.ok (), ((w.opened depth).suspend depth).start (Text.untilNul name)) := by
  simp only [after, perform, addChild, opened, run_get_bind, run_ite, run_set_bind,
    run_refuse_bind, run_modify]

def attributeChars (name value : List Char) : List Char :=
  ' ' :: name ++ "=\"".toList ++ escape value ++ ['"']

theorem after_addAttribute :
    w.after (.addAttribute depth name value) =
      if !w.isActive depth then (.error (refusal .inactive), w)
      else if !(w.elementAt? depth).any (·.phase = .attributes) then
        (.error (refusal .lateAttribute), w)
      else if (Text.untilNul name).isEmpty then (.error (refusal .emptyAttributeName), w)
      else (.ok (), w.emit (attributeChars (Text.untilNul name) value.chars)) := by
  simp only [after, perform, addAttribute, attributeChars, run_get_bind, run_ite, run_set,
    run_refuse_bind]

theorem after_addText :
    w.after (.addText depth value) =
      if (w.elementAt? depth).any (·.phase = .elements) then (.error (refusal .lateText), w)
      else if !w.isActive depth then (.error (refusal .inactive), w)
      else (.ok (), (w.emit (w.endOfTag depth ">" ++ escape value.chars)).enter depth .text) := by
  simp only [after, perform, addText, run_get_bind, run_ite, run_set, run_refuse_bind]

@[simp] theorem after_close : w.after .close = (.ok (), w.close) := rfl

@[simp] theorem after_move : w.after .move = (.ok (), w.move (w.elements.length - 1)) := rfl

@[simp] theorem after_moveAt : w.after (.moveAt depth) = (.ok (), w.move depth) := rfl

end Calls

section Elements
variable {w : Writer} {depth : Nat} {change : OpenElement → OpenElement}

theorem emit_nil (w : Writer) : w.emit [] = w := by
  cases w with
  | mk indented sink rooted elements written => cases sink <;> simp [emit]

@[simp] theorem elements_emit (w : Writer) (cs : List Char) :
    (w.emit cs).elements = w.elements := by
  unfold emit
  split <;> rfl

@[simp] theorem elementAt?_emit (w : Writer) (cs : List Char) (depth : Nat) :
    (w.emit cs).elementAt? depth = w.elementAt? depth := by
  rw [elementAt?, elements_emit, elementAt?]

theorem elementAt?_changeAt :
    (w.changeAt depth change).elementAt? depth = (w.elementAt? depth).map change := by
  simp [changeAt, elementAt?]

theorem changeAt_eq_self (h : ∀ e, w.elementAt? depth = some e → change e = e) :
    w.changeAt depth change = w := by
  have hsame : w.elements.reverse.modify depth change = w.elements.reverse := by
    refine List.ext_getElem? fun i => ?_
    rw [List.getElem?_modify]
    cases hat : w.elements.reverse[i]? with
    | none => rfl
    | some e =>
      by_cases hi : depth = i
      · subst hi
        simp [h e hat]
      · simp [hi]
  rw [changeAt, hsame, List.reverse_reverse]

/-- What follows the start tag of an element that has a child already is nothing. -/
theorem opened_of_elements {e : OpenElement} (h : w.elementAt? depth = some e)
    (phase : e.phase = .elements) : w.opened depth = w := by
  have hmark : w.endOfTag depth ">\n" = [] := by simp [endOfTag, h, phase]
  rw [opened, hmark, emit_nil]
  refine changeAt_eq_self fun e' he' => ?_
  cases h.symm.trans he'
  rw [← phase]

theorem handBack_nil (e : OpenElement) : e.handBack [] = [] := by
  unfold OpenElement.handBack
  split <;> rfl

theorem length_handBack (e : OpenElement) (outer : List OpenElement) :
    (e.handBack outer).length = outer.length := by
  unfold OpenElement.handBack
  split <;> simp

/-- The element around one that has ended is active again, if it was handed the writing. -/
theorem handBack_cons (e : OpenElement) {parent : OpenElement} (outer : List OpenElement)
    (inactive : parent.active = false) :
    e.handBack (parent :: outer) = { parent with active := e.handsBack } :: outer := by
  rw [OpenElement.handBack]
  split
  · rename_i hback
    rw [hback]
    rfl
  · rename_i hback
    rw [Bool.eq_false_iff.mpr hback, ← inactive]

section Innermost
variable {e : OpenElement} {es : List OpenElement}

theorem elements_close (h : w.elements = e :: es) : w.close.elements = e.handBack es := by
  rw [close, h]

theorem elementAt?_innermost (h : w.elements = e :: es) : w.elementAt? es.length = some e := by
  simp [elementAt?, h]

theorem elements_changeAt_innermost (h : w.elements = e :: es) :
    (w.changeAt es.length change).elements = change e :: es := by
  have hlast : es.length < (es.reverse ++ [e]).length := by simp
  have hmodify : (es.reverse ++ [e]).modify es.length change = es.reverse ++ [change e] := by
    rw [List.modify_eq_take_cons_drop hlast]
    simp
  rw [changeAt, h, List.reverse_cons, hmodify, List.reverse_concat, List.reverse_reverse]

theorem elements_opened (h : w.elements = e :: es) :
    (w.opened es.length).elements = { e with phase := .elements } :: es :=
  elements_changeAt_innermost ((elements_emit w _).trans h)

/-- Nothing but the element inside of a moved one is changed. -/
theorem elements_move {parent : OpenElement} (h : w.elements = e :: parent :: es) :
    (w.move es.length).elements = { e with handsBack := false } :: parent :: es := by
  rw [move, ← List.length_cons (a := parent)]
  exact elements_changeAt_innermost h

/-- While all other elements are inactive, an active one is the innermost one. -/
theorem eq_innermost_of_isActive (h : w.elements = e :: es)
    (inactive : ∀ x ∈ es, x.active = false) (active : w.isActive depth = true) :
    depth = es.length ∧ e.active = true := by
  obtain ⟨x, hat, hactive⟩ := (Option.any_eq_true _ _).mp active
  rw [elementAt?, h, List.reverse_cons] at hat
  rcases Nat.lt_trichotomy depth es.length with hless | rfl | hmore
  · rw [List.getElem?_append_left (by simpa using hless)] at hat
    have hmem : x ∈ es := List.mem_reverse.mp (List.mem_of_getElem? hat)
    rw [inactive x hmem] at hactive
    cases hactive
  · have hsame : e = x := by simpa using hat
    exact ⟨rfl, hsame ▸ hactive⟩
  · rw [List.getElem?_eq_none (by simp; omega)] at hat
    cases hat

end Innermost

end Elements

section Successes
variable {w w' : Writer} {depth : Nat} {name : String} {value : Value}

/-- A check that was passed. -/
theorem of_check_eq_ok {c : Prop} [Decidable c] {f : Failure} {rest : Except Failure Unit × Writer}
    (h : (if c then (.error f, w) else rest) = (.ok (), w')) : ¬ c ∧ rest = (.ok (), w') := by
  by_cases hc : c
  · rw [if_pos hc] at h
    cases h
  · rw [if_neg hc] at h
    exact ⟨hc, h⟩

theorem after_addRoot_ok (h : w.after (.addRoot name) = (.ok (), w')) :
    w.rooted = false ∧ w' = Writer.start { w with rooted := true } (Text.untilNul name) := by
  rw [after_addRoot] at h
  obtain ⟨hrooted, h⟩ := of_check_eq_ok h
  by_cases hempty : (Text.untilNul name).isEmpty = true
  · rw [if_pos hempty] at h
    cases h
  · rw [if_neg hempty] at h
    cases h
    exact ⟨Bool.eq_false_iff.mpr hrooted, rfl⟩

theorem after_addChild_ok (h : w.after (.addChild depth name) = (.ok (), w')) :
    w.isActive depth = true ∧ (w.elementAt? depth).any (·.phase = .text) = false ∧
      w' = ((w.opened depth).suspend depth).start (Text.untilNul name) := by
  rw [after_addChild] at h
  obtain ⟨htext, h⟩ := of_check_eq_ok h
  obtain ⟨hactive, h⟩ := of_check_eq_ok h
  by_cases hempty : (Text.untilNul name).isEmpty = true
  · rw [if_pos hempty] at h
    cases h
  · rw [if_neg hempty] at h
    cases h
    exact ⟨by simpa using hactive, Bool.eq_false_iff.mpr htext, rfl⟩

theorem after_addAttribute_ok (h : w.after (.addAttribute depth name value) = (.ok (), w')) :
    w.isActive depth = true ∧ (w.elementAt? depth).any (·.phase = .attributes) = true ∧
      w' = w.emit (attributeChars (Text.untilNul name) value.chars) := by
  rw [after_addAttribute] at h
  obtain ⟨hactive, h⟩ := of_check_eq_ok h
  obtain ⟨hphase, h⟩ := of_check_eq_ok h
  obtain ⟨_, h⟩ := of_check_eq_ok h
  cases h
  exact ⟨by simpa using hactive, by simpa using hphase, rfl⟩

theorem after_addText_ok (h : w.after (.addText depth value) = (.ok (), w')) :
    w.isActive depth = true ∧ (w.elementAt? depth).any (·.phase = .elements) = false ∧
      w' = (w.emit (w.endOfTag depth ">" ++ escape value.chars)).enter depth .text := by
  rw [after_addText] at h
  obtain ⟨hphase, h⟩ := of_check_eq_ok h
  obtain ⟨hactive, h⟩ := of_check_eq_ok h
  cases h
  exact ⟨by simpa using hactive, Bool.eq_false_iff.mpr hphase, rfl⟩

end Successes

/-- The writer behind calls in a row, whatever their outcomes. -/
def run (w : Writer) (calls : List Call) : Writer := calls.foldl (fun w call => (w.after call).2) w

@[simp] theorem run_nil (w : Writer) : w.run [] = w := rfl

@[simp] theorem run_cons (w : Writer) (call : Call) (calls : List Call) :
    w.run (call :: calls) = (w.after call).2.run calls := rfl

end SeismicTree.Writer

import SeismicTree.Proofs.Domains
import SeismicTree.Uncertainty.Application

/-!
# Sources changed in place

The library makes a new source for every change. Here a source is changed where it is: a handler
looks at the source, checks what the change would lead to, and assigns one field after the other. A
check that came too late would leave a source half changed. As every check stands in front of the
assignments, what a handler leaves behind is the new source, or the old one together with the
failure.
-/

namespace SeismicTree

/-- A change of a source in place: it may be refused, and it leaves a source behind either way. -/
abbrev Changing := ExceptT Failure (StateM Source)

namespace Changing

/-- A check, and the assignments behind it one after the other. -/
def checkThen {α : Type} (check : Except Failure α) (assignments : List (Source → Source)) :
    Changing Unit := do
  let _ ← liftM check
  assignments.forM modify

/-- The outcome of a change that is made as a whole or not at all. -/
def settle (s : Source) : Except Failure Source → Except Failure Unit × Source
  | .ok s' => (.ok (), s')
  | .error f => (.error f, s)

theorem run_forM_modify (assignments : List (Source → Source)) (s : Source) :
    (assignments.forM modify : Changing PUnit).run s =
      (.ok ⟨⟩, assignments.foldl (fun s f => f s) s) := by
  induction assignments generalizing s with
  | nil => rfl
  | cons f fs ih => exact ih (f s)

/-- With nothing checked behind an assignment, a change is made as a whole or not at all. -/
theorem run_checkThen {α : Type} (check : Except Failure α) (assignments : List (Source → Source))
    (s : Source) :
    (checkThen check assignments).run s =
      settle s ((fun _ => assignments.foldl (fun s f => f s) s) <$> check) := by
  cases check with
  | error f => rfl
  | ok a => exact run_forM_modify assignments s

/-- Another failure, for a change that fails. -/
theorem run_adapt (change : Failure → Failure) {x : Changing Unit} {s : Source}
    {r : Except Failure Source} (h : x.run s = settle s r) :
    (x.adapt change).run s = settle s (r.mapError change) := by
  have hrun : (x.adapt change).run s = ((x.run s).1.mapError change, (x.run s).2) := rfl
  rw [hrun, h]
  cases r <;> rfl

end Changing

namespace Source
open Changing

def assignLaw (f : GutenbergRichter → GutenbergRichter) (s : Source) : Source :=
  match s.mfd with
  | some (.gutenbergRichter g) => { s with mfd := some (.gutenbergRichter (f g)) }
  | _ => s

def assignRates (f : BinnedRates → BinnedRates) (s : Source) : Source :=
  match s.mfd with
  | some (.binned r) => { s with mfd := some (.binned (f r)) }
  | _ => s

def assignFault (f : SimpleFault → SimpleFault) (s : Source) : Source :=
  match s.body with
  | .simpleFault g => { s with body := .simpleFault (f g) }
  | _ => s

def assignBody (body : SourceBody) (s : Source) : Source := { s with body }

/-- The change of a law, with the fields assigned one after the other. -/
def changeLaw (g : GutenbergRichter) : MfdChange → Changing Unit
  | .setAB a b =>
    checkThen { g with aValue := a, bValue := b }.checked
      [assignLaw ({ · with aValue := a }), assignLaw ({ · with bValue := b })]
  | .incrementB d =>
    checkThen { g with bValue := g.bValue + d }.checked
      [assignLaw fun g => { g with bValue := g.bValue + d }]
  | .incrementMaxMag d =>
    checkThen { g with maxMag := g.maxMag + d }.checked
      [assignLaw fun g => { g with maxMag := g.maxMag + d }]
  | .setMaxMag x => checkThen { g with maxMag := x }.checked [assignLaw ({ · with maxMag := x })]
  | change => throw ((Mfd.gutenbergRichter g).unsupported change)

def changeRates (r : BinnedRates) : MfdChange → Changing Unit
  | .setRates r' =>
    checkThen r'.checked
      [assignRates ({ · with minMag := r'.minMag }), assignRates ({ · with binWidth := r'.binWidth }),
        assignRates ({ · with rates := r'.rates })]
  | change => throw ((Mfd.binned r).unsupported change)

def changeMfd (change : MfdChange) : Changing Unit := do
  let s ← get
  match s.mfd with
  | some (.gutenbergRichter g) => changeLaw g change
  | some (.binned r) => changeRates r change
  | none => throw { cause := .noMfd, context := { source := some s.id } }

def changeBody (s : Source) : SourceChange → Changing Unit := fun change =>
  match s.body, change with
  | .simpleFault g, .adjustDip d =>
    checkThen (checkDip (g.dip + d)) [assignFault fun g => { g with dip := g.dip + d }]
  | .simpleFault _, .setDip dip => checkThen (checkDip dip) [assignFault ({ · with dip })]
  | .simpleFault _, .setSimpleFault g =>
    checkThen (checkSimpleFault g) [assignBody (.simpleFault g)]
  | .complexFault _, .setComplexFault g =>
    checkThen (checkComplexFault g) [assignBody (.complexFault g)]
  | .characteristicFault _, .setSurface surface =>
    checkThen (.ok ()) [assignBody (.characteristicFault surface)]
  | _, _ =>
    throw
      { cause := .unsupported change.name (s.kind.name ++ " sources")
        context := { operation := some change.name } }

def blaming (s : Source) (x : Changing Unit) : Changing Unit :=
  x.adapt (·.within fun c => { c with source := some s.id })

def applyInPlace (u : Uncertainty) (value : UncertaintyValue) : Changing Unit := do
  let s ← get
  if u.appliesToSources then
    match u.modification? value with
    | some (.ofSource change) => s.blaming (s.blaming (s.changeBody change))
    | some (.ofMfd change) => s.blaming (changeMfd change)
    | none => throw { cause := .valueMismatch }
  else
    throw
      { cause := .misuse .inapplicableUncertainty
        context := { uncertainty := some u.name, source := some s.id } }

section Runs
variable {s : Source}

theorem run_changeLaw {g : GutenbergRichter} (h : s.mfd = some (.gutenbergRichter g))
    (change : MfdChange) :
    (changeLaw g change).run s =
      settle s ((fun m => { s with mfd := some m }) <$> (Mfd.gutenbergRichter g).modify change) := by
  have hchecked : ∀ (g' : GutenbergRichter) (assignments : List (Source → Source)),
      assignments.foldl (fun s f => f s) s = { s with mfd := some (.gutenbergRichter g') } →
        (checkThen g'.checked assignments).run s =
          settle s ((fun m => { s with mfd := some m }) <$> (.gutenbergRichter <$> g'.checked)) := by
    intro g' assignments hassigned
    rw [run_checkThen, hassigned]
    cases hg : g'.checked with
    | error f => rfl
    | ok g'' =>
      cases GutenbergRichter.checked_eq hg
      rfl
  obtain ⟨id, name, region, mfd, rate, body⟩ := s
  cases h
  cases change with
  | setAB a b => exact hchecked _ _ rfl
  | incrementB d => exact hchecked _ _ rfl
  | incrementMaxMag d => exact hchecked _ _ rfl
  | setMaxMag x => exact hchecked _ _ rfl
  | setRates r => rfl

theorem run_changeRates {r : BinnedRates} (h : s.mfd = some (.binned r)) (change : MfdChange) :
    (changeRates r change).run s =
      settle s ((fun m => { s with mfd := some m }) <$> (Mfd.binned r).modify change) := by
  obtain ⟨id, name, region, mfd, rate, body⟩ := s
  cases h
  cases change with
  | setRates r' =>
    rw [changeRates, run_checkThen, Mfd.modify]
    cases hr : r'.checked with
    | error f => rfl
    | ok r'' =>
      cases BinnedRates.checked_eq hr
      rfl
  | setAB a b => rfl
  | incrementB d => rfl
  | incrementMaxMag d => rfl
  | setMaxMag x => rfl

theorem run_changeMfd (s : Source) (change : MfdChange) :
    (changeMfd change).run s = settle s (s.modifyMfd change) := by
  have hget : (changeMfd change).run s = (match s.mfd with
      | some (.gutenbergRichter g) => changeLaw g change
      | some (.binned r) => changeRates r change
      | none => throw { cause := .noMfd, context := { source := some s.id } } :
      Changing Unit).run s := rfl
  rw [hget, modifyMfd]
  cases hmfd : s.mfd with
  | none => rfl
  | some m =>
    cases m with
    | gutenbergRichter g => exact run_changeLaw hmfd change
    | binned r => exact run_changeRates hmfd change

theorem run_changeBody (s : Source) (change : SourceChange) :
    (s.blaming (s.changeBody change)).run s = settle s (s.modify change) := by
  have hchecked : ∀ (check : Except Failure Unit) (body : SourceBody)
      (assignments : List (Source → Source)),
      assignments.foldl (fun s f => f s) s = { s with body } →
        (checkThen check assignments).run s =
          settle s ((fun body => { s with body }) <$> (fun _ => body) <$> check) := by
    intro check body assignments hassigned
    rw [run_checkThen, hassigned]
    cases check <;> rfl
  refine run_adapt _ ?_
  obtain ⟨id, name, region, mfd, rate, body⟩ := s
  cases body with
  | point location upper lower => cases change <;> rfl
  | area polygon upper lower discretization => cases change <;> rfl
  | simpleFault g =>
    cases change with
    | adjustDip d => exact hchecked _ _ _ rfl
    | setDip dip => exact hchecked _ _ _ rfl
    | setSimpleFault g' => exact hchecked _ _ _ rfl
    | setComplexFault g' => rfl
    | setSurface surface => rfl
  | complexFault g =>
    cases change with
    | setComplexFault g' => exact hchecked _ _ _ rfl
    | _ => rfl
  | characteristicFault surface => cases change <;> rfl

/-- A value applied in place makes the source that applying it makes, or else leaves the source as
it was, its distribution included. -/
theorem run_applyInPlace (u : Uncertainty) (value : UncertaintyValue) (s : Source) :
    (applyInPlace u value).run s = settle s (s.apply u value) := by
  by_cases happlies : u.appliesToSources = true
  · rw [apply, if_pos happlies]
    have hrun : (applyInPlace u value).run s = (match u.modification? value with
        | some (.ofSource change) => s.blaming (s.blaming (s.changeBody change))
        | some (.ofMfd change) => s.blaming (changeMfd change)
        | none => throw { cause := .valueMismatch } : Changing Unit).run s := by
      simp only [applyInPlace, happlies, if_true]
      rfl
    rw [hrun]
    cases u.modification? value with
    | none => rfl
    | some m =>
      cases m with
      | ofSource change => exact run_adapt _ (run_changeBody s change)
      | ofMfd change => exact run_adapt _ (run_changeMfd s change)
  · rw [apply, if_neg happlies]
    simp only [applyInPlace, happlies]
    rfl

end Runs

end Source

end SeismicTree

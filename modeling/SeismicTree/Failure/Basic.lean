import SeismicTree.Failure.Cause
import SeismicTree.Text.Ending

/-!
# Failures

A failure is a cause with the context that callers add on its way out. Each item of the context
is present at most once, and adding an item replaces the earlier one.
-/

namespace SeismicTree

/-- Where and on what a failure arose. -/
structure Context where
  value : Option String := none
  file : Option String := none
  mode : Option String := none
  line : Option Int := none
  branchSet : Option String := none
  branch : Option String := none
  uncertainty : Option String := none
  filter : Option String := none
  source : Option String := none
  operation : Option String := none
  realization : Option Nat := none
  elementName : Option String := none
  attributeName : Option String := none
  deriving DecidableEq, Repr

structure Failure where
  cause : Cause
  context : Context := {}
  deriving DecidableEq, Repr

namespace Failure

def kind (f : Failure) : FailureKind := f.cause.kind

def message (f : Failure) : String := Text.shown f.cause.message

def within (change : Context → Context) (f : Failure) : Failure :=
  { f with context := change f.context }

@[simp] theorem cause_within (change : Context → Context) (f : Failure) :
    (f.within change).cause = f.cause := rfl

@[simp] theorem kind_within (change : Context → Context) (f : Failure) :
    (f.within change).kind = f.kind := rfl

/-- A value outside of its domain, shown with the text of the value. -/
def domain (fault : DomainFault) (value : String) : Failure :=
  { cause := .domain fault, context := { value := some value } }

/-- The line of an element if it is known; lines count from one. -/
def knownLine (line : Option Int) : Option Nat :=
  match line with
  | some n => if 0 < n then some n.toNat else none
  | none => none

/-- A fault of a logic tree at a place in a file. The place is part of the message and of the
context. -/
def logicTree (fault : TreeFault) (file : String) (line : Option Int) : Failure :=
  { cause := .logicTree fault file (knownLine line)
    context := { file := some file, line := (knownLine line).map Int.ofNat } }

end Failure

def withContext {α : Type} (change : Context → Context) (r : Except Failure α) : Except Failure α :=
  r.mapError (Failure.within change)

@[simp] theorem withContext_ok {α : Type} (change : Context → Context) (a : α) :
    withContext change (.ok a) = .ok a := rfl

@[simp] theorem withContext_error {α : Type} (change : Context → Context) (f : Failure) :
    withContext (α := α) change (.error f) = .error (f.within change) := rfl

end SeismicTree

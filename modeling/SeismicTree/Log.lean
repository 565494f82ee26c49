import SeismicTree.Failure.Basic
import SeismicTree.Text.Ending

/-!
# Log

Entries are part of the answer of an operation, also of one that fails: `Logged` pairs them with
its result. Taking the result alone is a map of monads (`result_bind`), so a statement about
results never has to follow the entries. How long a timed process took is not modelled; its
entry ends with a text for the duration that is supplied when the log is written out.
-/

namespace SeismicTree

namespace Log

/-- The levels of log entries, from the most to the least important. -/
inductive Level where
  | error | warning | info | debug1 | debug2 | debug3 | debug4 | debug5
  deriving DecidableEq, Repr

namespace Level

def all : List Level := [error, warning, info, debug1, debug2, debug3, debug4, debug5]

def rank : Level → Nat
  | error => 0 | warning => 1 | info => 2
  | debug1 => 3 | debug2 => 4 | debug3 => 5 | debug4 => 6 | debug5 => 7

def label : Level → String
  | error => "ERROR" | warning => "WARNING" | info => "INFO"
  | debug1 => "DEBUG1" | debug2 => "DEBUG2" | debug3 => "DEBUG3" | debug4 => "DEBUG4"
  | debug5 => "DEBUG5"

/-- Debug entries are indented by their depth. -/
def indentation (l : Level) : String := String.ofList (List.replicate (l.rank - info.rank) '\t')

def ofVerbosity (n : Int32) : Except Failure Level :=
  match all.find? (fun l => (l.rank : Int) == n.toInt) with
  | some l => .ok l
  | none => .error { cause := .setting .verbosity, context := { value := some (toString n.toInt) } }

end Level

/-- One entry of the log. A timed entry ends with a duration. -/
structure Entry where
  level : Level
  text : String
  timed : Bool
  deriving DecidableEq, Repr

/-- The line of an entry, with the text that stands for durations. A NUL in the entry ends the line
without a line break. -/
def Entry.render (elapsed : String) (e : Entry) : String :=
  Text.shown (e.level.label ++ ": " ++ e.level.indentation ++ e.text
    ++ (if e.timed then " in " ++ elapsed else "") ++ "\n")

def render (level : Level) (elapsed : String) (entries : List Entry) : String :=
  String.join ((entries.filter fun e => e.level.rank ≤ level.rank).map (Entry.render elapsed))

end Log

/-- A result together with the log entries that were written on the way to it. -/
structure Logged (α : Type) where
  entries : List Log.Entry
  result : Except Failure α

namespace Logged

variable {α β : Type}

protected def pure (a : α) : Logged α := ⟨[], .ok a⟩

protected def bind (x : Logged α) (f : α → Logged β) : Logged β :=
  match x.result with
  | .ok a => ⟨x.entries ++ (f a).entries, (f a).result⟩
  | .error e => ⟨x.entries, .error e⟩

instance : Monad Logged where
  pure := Logged.pure
  bind := Logged.bind

/-- A result that was reached without writing to the log. -/
def quiet (r : Except Failure α) : Logged α := ⟨[], r⟩

instance : MonadLift (Except Failure) Logged := ⟨quiet⟩

def fail (f : Failure) : Logged α := quiet (.error f)

def note (level : Log.Level) (text : String) : Logged Unit := ⟨[⟨level, text, false⟩], .ok ()⟩

/-- Runs a process between an entry that announces it and one that ends it. The end is written
whether the process succeeds or not. Both entries are whole, because the name of the process itself
ends at its first NUL. -/
def timed (level : Log.Level) (process : String) (x : Logged α) : Logged α :=
  let name := Text.shown process
  ⟨⟨level, name ++ "...", false⟩ :: x.entries ++ [⟨level, "Finished " ++ name, true⟩], x.result⟩

def within (change : Context → Context) (x : Logged α) : Logged α :=
  ⟨x.entries, withContext change x.result⟩

@[simp] theorem result_pure (a : α) : (pure a : Logged α).result = .ok a := rfl

@[simp] theorem result_bind (x : Logged α) (f : α → Logged β) :
    (x >>= f).result = x.result >>= fun a => (f a).result := by
  show (Logged.bind x f).result = _
  unfold Logged.bind
  cases x.result <;> rfl

@[simp] theorem result_quiet (r : Except Failure α) : (quiet r).result = r := rfl

@[simp] theorem result_fail (f : Failure) : (fail f : Logged α).result = .error f := rfl

@[simp] theorem result_note (level : Log.Level) (text : String) :
    (note level text).result = .ok () := rfl

@[simp] theorem result_timed (level : Log.Level) (process : String) (x : Logged α) :
    (timed level process x).result = x.result := rfl

@[simp] theorem result_within (change : Context → Context) (x : Logged α) :
    (x.within change).result = withContext change x.result := rfl

end Logged

end SeismicTree

import SeismicTree.Failure.Basic

/-!
# Settings

Every setting is a natural number below `2 ^ 31`. A negative number is refused, and the settings
stay as they were.
-/

namespace SeismicTree

/-- A setting: a number that is not negative and fits in 31 bits. -/
abbrev Count := Fin 2147483648

def Count.ofInt32? (n : Int32) : Option Count :=
  if 0 ≤ n.toInt then
    some ⟨n.toInt.toNat, by have := n.toInt_lt; omega⟩
  else none

/-- How many samples to draw (none for all paths), the first seed, and how many paths to report
(zero for all). -/
structure Settings where
  samples : Count
  seed : Count
  limit : Count
  deriving DecidableEq, Repr

namespace Settings

def standard : Settings := ⟨0, 42, 0⟩

def checked (fault : SettingFault) (n : Int32) : Except Failure Count :=
  match Count.ofInt32? n with
  | some c => .ok c
  | none => .error { cause := .setting fault, context := { value := some (toString n.toInt) } }

def withSamples (s : Settings) (n : Int32) : Except Failure Settings := do
  return { s with samples := ← checked .samples n }

def withSeed (s : Settings) (n : Int32) : Except Failure Settings := do
  return { s with seed := ← checked .seed n }

def withLimit (s : Settings) (n : Int32) : Except Failure Settings := do
  return { s with limit := ← checked .limit n }

end Settings

end SeismicTree

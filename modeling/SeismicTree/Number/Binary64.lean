/-!
# Binary64 numbers

Arithmetic and comparison are those of core's `Float`. The only addition is the sign of a NaN:
core has a single NaN, while the text of a NaN shows a sign, so the sign is kept beside the value.
A product hands on the NaN of its second factor before that of its first; any other operation hands
on the first NaN it is given. A NaN that arises from numbers is signed.
-/

namespace SeismicTree

/-- A binary64 number; `signedNaN` matters only where `value` is a NaN. -/
structure Binary64 where
  value : Float
  signedNaN : Bool
  deriving DecidableEq

namespace Binary64

def ofFloat (v : Float) : Binary64 := ⟨v, false⟩

def ofBits (bits : UInt64) : Binary64 :=
  let v := Float.ofBits bits
  ⟨v, v.isNaN && bits >>> 63 == 1⟩

def isNaN (x : Binary64) : Bool := x.value.isNaN

/-- The result of an operation on two numbers, neither of them a NaN. -/
def arising (v : Float) : Binary64 := ⟨v, v.isNaN⟩

/-- An operation of core, with the first NaN among the operands handed on. -/
def combine (op : Float → Float → Float) (x y : Binary64) : Binary64 :=
  if x.isNaN then x else if y.isNaN then y else arising (op x.value y.value)

/-- The opposite number, and the opposite sign of a NaN. -/
def neg (x : Binary64) : Binary64 := ⟨-x.value, x.isNaN && !x.signedNaN⟩

def abs (x : Binary64) : Binary64 := ofFloat x.value.abs

instance : Add Binary64 := ⟨combine (· + ·)⟩
instance : Sub Binary64 := ⟨combine (· - ·)⟩
instance : Mul Binary64 := ⟨fun x y => combine (fun b a => a * b) y x⟩
instance : Div Binary64 := ⟨combine (· / ·)⟩
instance : Neg Binary64 := ⟨neg⟩

/-- Comparisons with a NaN are false, and both zeros are equal. -/
instance : LE Binary64 := ⟨fun x y => x.value ≤ y.value⟩
instance : LT Binary64 := ⟨fun x y => x.value < y.value⟩

instance (x y : Binary64) : Decidable (x ≤ y) := inferInstanceAs (Decidable (x.value ≤ y.value))
instance (x y : Binary64) : Decidable (x < y) := inferInstanceAs (Decidable (x.value < y.value))

instance (n : Nat) : OfNat Binary64 n := ⟨ofFloat (OfNat.ofNat n)⟩
instance : OfScientific Binary64 :=
  ⟨fun m negative e => ofFloat (OfScientific.ofScientific m negative e)⟩
instance : Inhabited Binary64 := ⟨0⟩

/-- The number nearest to a natural number. -/
def ofNat (n : Nat) : Binary64 := ofFloat (Float.ofNat n)

end Binary64

end SeismicTree

import SeismicTree.Number.Binary64

/-!
# Decimal text of numbers

Two texts are used: six decimals for the values shown with a failure, and at most twelve
significant digits for reports. Both round the exact binary value once, ties to the even digit.
The digits are computed with natural numbers, so nothing depends on how a float prints itself.
-/

namespace SeismicTree

/-- The natural number nearest to a quotient; of two nearest ones the even one. -/
def nearest (num den : Nat) : Nat :=
  let q := num / den
  let r := num % den
  if 2 * r < den then q else if den < 2 * r then q + 1 else q + q % 2

/-- What a number stands for: a signed quotient of natural numbers, if it is finite. -/
inductive Numeral where
  | nan (negative : Bool)
  | infinite (negative : Bool)
  | finite (negative : Bool) (num den : Nat)
  deriving DecidableEq

/-- The exact value of a number, read off its bits. -/
def Binary64.numeral (x : Binary64) : Numeral :=
  let bits := x.value.toBits.toNat
  let negative := decide (Nat.pow 2 63 ≤ bits)
  let exponent := bits / Nat.pow 2 52 % Nat.pow 2 11
  let fraction := bits % Nat.pow 2 52
  if exponent = 2047 then
    if fraction = 0 then .infinite negative else .nan x.signedNaN
  else if exponent = 0 then .finite negative fraction (Nat.pow 2 1074)
  else
    let m := fraction + Nat.pow 2 52
    if 1075 ≤ exponent then .finite negative (m * Nat.pow 2 (exponent - 1075)) 1
    else .finite negative m (Nat.pow 2 (1075 - exponent))

namespace Decimal

def sign (negative : Bool) : String := if negative then "-" else ""

def padded (width : Nat) (n : Nat) : String :=
  let digits := toString n
  String.ofList (List.replicate (width - digits.length) '0') ++ digits

/-- A count of units of the last place, with the point put in. -/
def withPoint (places units : Nat) : String :=
  if places = 0 then toString units
  else toString (units / Nat.pow 10 places) ++ "." ++ padded places (units % Nat.pow 10 places)

/-- Text without the zeros that end its decimals, and without a point that ends it. -/
def trimZeros (text : String) : String :=
  if text.contains '.' then
    let kept := text.toList.reverse.dropWhile (· == '0')
    String.ofList (if kept.head? == some '.' then kept.tail else kept).reverse
  else text

/-- The position of the leading digit of a positive quotient, the `e` with
`10 ^ e ≤ num / den < 10 ^ (e + 1)`. -/
def leading (num den : Nat) : Int :=
  let e : Int := (toString num).length - (toString den).length
  let reached := if 0 ≤ e then den * Nat.pow 10 e.toNat ≤ num else den ≤ num * Nat.pow 10 (-e).toNat
  if reached then e else e - 1

/-- A positive quotient rounded to a number of significant digits: the digits as one natural
number, and the position of the leading digit. -/
def significant (count num den : Nat) : Nat × Int :=
  let e := leading num den
  let shift : Int := (count : Int) - 1 - e
  let digits := if 0 ≤ shift then nearest (num * Nat.pow 10 shift.toNat) den
    else nearest num (den * Nat.pow 10 (-shift).toNat)
  if digits = Nat.pow 10 count then (Nat.pow 10 (count - 1), e + 1) else (digits, e)

/-- The exponent of scientific text: a sign and at least two digits. -/
def exponentText (e : Int) : String :=
  (if e < 0 then "e-" else "e+") ++ padded 2 e.natAbs

/-- The layout of significant digits: positional from `10 ^ (-4)` up to the digit count. -/
def layout (count digits : Nat) (e : Int) : String :=
  if -4 ≤ e ∧ e < count then trimZeros (withPoint ((count : Int) - 1 - e).toNat digits)
  else trimZeros (withPoint (count - 1) digits) ++ exponentText e

end Decimal

def Binary64.sixDecimals (x : Binary64) : String :=
  match x.numeral with
  | .nan negative => Decimal.sign negative ++ "nan"
  | .infinite negative => Decimal.sign negative ++ "inf"
  | .finite negative num den =>
    Decimal.sign negative ++ Decimal.withPoint 6 (nearest (num * Nat.pow 10 6) den)

def Binary64.twelveDigits (x : Binary64) : String :=
  match x.numeral with
  | .nan negative => Decimal.sign negative ++ "nan"
  | .infinite negative => Decimal.sign negative ++ "inf"
  | .finite negative 0 _ => Decimal.sign negative ++ "0"
  | .finite negative num den =>
    let (digits, e) := Decimal.significant 12 num den
    Decimal.sign negative ++ Decimal.layout 12 digits e

theorem Binary64.twelveDigits_of_finite {x : Binary64} {negative : Bool} {num den : Nat}
    (h : x.numeral = .finite negative num den) (nonzero : num ≠ 0) :
    x.twelveDigits = Decimal.sign negative ++
      Decimal.layout 12 (Decimal.significant 12 num den).1 (Decimal.significant 12 num den).2 := by
  rw [twelveDigits, h]
  cases num with
  | zero => exact absurd rfl nonzero
  | succ n => rfl

end SeismicTree

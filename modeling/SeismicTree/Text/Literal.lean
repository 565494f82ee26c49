import SeismicTree.Number.Binary64

/-!
# Numbers and flags in text

A text is read as a whole: what is left over after a number makes it no number. White space may
stand in front of a number, never behind it. A whole number has to fit in 32 bits. It is read in 64
of them, where a number that is too large counts as the largest one and so is still refused. A
number with a fraction is decimal or hexadecimal, and is rounded once to the nearest binary64
number, ties to even; a value beyond the largest finite number is refused, one below the smallest
becomes a zero, and the words for infinity are refused.
-/

namespace SeismicTree.Literal

/-- The white space that may stand in front of a number. -/
def isLeadingSpace (c : Char) : Bool := c == ' ' || ('\t' ≤ c && c ≤ '\r')

/-- The sign in front of digits: whether it is a minus, and what follows. -/
def takeSign : List Char → Bool × List Char
  | '-' :: cs => (true, cs)
  | '+' :: cs => (false, cs)
  | cs => (false, cs)

def digitValue (c : Char) : Nat :=
  if '0' ≤ c ∧ c ≤ '9' then c.toNat - '0'.toNat
  else if 'a' ≤ c ∧ c ≤ 'f' then c.toNat - 'a'.toNat + 10
  else c.toNat - 'A'.toNat + 10

def isHexDigit (c : Char) : Bool :=
  c.isDigit || ('a' ≤ c && c ≤ 'f') || ('A' ≤ c && c ≤ 'F')

def ofDigits (base : Nat) (digits : List Char) : Nat :=
  digits.foldl (fun n c => n * base + digitValue c) 0

/-- Digits alone, at least one of them. -/
def digits? (cs : List Char) : Option Nat :=
  if cs.isEmpty || !cs.all Char.isDigit then none else some (ofDigits 10 cs)

def signedDigits? (cs : List Char) : Option Int :=
  let (negative, rest) := takeSign cs
  (digits? rest).map fun n => if negative then -(n : Int) else n

/-- An integer, or the 64-bit number that is nearest to it. -/
def saturated (n : Int) : Int64 :=
  if n < Int64.minValue.toInt then Int64.minValue
  else if Int64.maxValue.toInt < n then Int64.maxValue
  else Int64.ofInt n

/-- The whole number at the start of a text, and what is left over behind it. Without digits
there is no number, and everything is left over. -/
def leadingInteger (cs : List Char) : Int64 × List Char :=
  let (negative, rest) := takeSign (cs.dropWhile isLeadingSpace)
  match rest.takeWhile Char.isDigit with
  | [] => (0, cs)
  | digits =>
    let n := ofDigits 10 digits
    (saturated (if negative then -(n : Int) else n), rest.dropWhile Char.isDigit)

/-- A whole number that fits in 32 bits. -/
def integer? (text : String) : Option Int32 :=
  let (n, rest) := leadingInteger text.toList
  if text = "" ∨ rest ≠ [] ∨ Int32.maxValue.toInt64 < n ∨ n < Int32.minValue.toInt64 then none
  else some n.toInt32

/-- The words for the two truth values. -/
def flag? (text : String) : Option Bool :=
  if text = "true" ∨ text = "1" then some true
  else if text = "false" ∨ text = "0" then some false
  else none

/-- The finite number nearest to `m * 10 ^ e`. -/
def decimal? (m : Nat) (e : Int) : Option Float :=
  let top := (toString m).length + e
  if m = 0 ∨ top < -400 then some 0
  else if 400 < top then none
  else
    let v := Float.ofScientific m (decide (e < 0)) e.natAbs
    if v.isFinite then some v else none

/-- The finite number nearest to `m * 2 ^ e`; a power of one half is a power of five over one of
ten. -/
def binary? (m : Nat) (e : Int) : Option Float :=
  let top := Nat.log2 m + e
  if m = 0 ∨ top < -1200 then some 0
  else if 1200 < top then none
  else
    let v := if 0 ≤ e then Float.ofScientific (m * Nat.pow 2 e.toNat) false 0
      else Float.ofScientific (m * Nat.pow 5 e.natAbs) true e.natAbs
    if v.isFinite then some v else none

/-- The parts of a number: the digits before and behind the point, and what follows them. -/
def splitPoint (isDigit : Char → Bool) (cs : List Char) : List Char × List Char × List Char :=
  let whole := cs.takeWhile isDigit
  match cs.dropWhile isDigit with
  | '.' :: rest => (whole, rest.takeWhile isDigit, rest.dropWhile isDigit)
  | rest => (whole, [], rest)

/-- The exponent behind a number: nothing, or one of the marks and signed digits. -/
def exponent? (marks : List Char) : List Char → Option Int
  | [] => some 0
  | c :: cs => if marks.contains c then signedDigits? cs else none

def decimalForm? (cs : List Char) : Option Float :=
  let (whole, fraction, rest) := splitPoint Char.isDigit cs
  if whole.isEmpty && fraction.isEmpty then none
  else match exponent? ['e', 'E'] rest with
    | none => none
    | some e => decimal? (ofDigits 10 (whole ++ fraction)) (e - fraction.length)

def hexForm? (cs : List Char) : Option Float :=
  let (whole, fraction, rest) := splitPoint isHexDigit cs
  if whole.isEmpty && fraction.isEmpty then none
  else match exponent? ['p', 'P'] rest with
    | none => none
    | some e => binary? (ofDigits 16 (whole ++ fraction)) (e - 4 * fraction.length)

/-- The word for a NaN, in any case; letters, digits and underscores may follow it in brackets. -/
def isNaNWord (cs : List Char) : Bool :=
  (cs.take 3).map Char.toLower == ['n', 'a', 'n'] &&
    match cs.drop 3 with
    | [] => true
    | '(' :: rest =>
      rest.dropWhile (fun c => c.isAlphanum || c == '_') == [')']
    | _ => false

def magnitude? (cs : List Char) : Option Float :=
  if isNaNWord cs then some (0 / 0)
  else match cs with
    | '0' :: 'x' :: rest => hexForm? rest
    | '0' :: 'X' :: rest => hexForm? rest
    | _ => decimalForm? cs

def number? (text : String) : Option Binary64 :=
  let (negative, rest) := takeSign (text.toList.dropWhile isLeadingSpace)
  (magnitude? rest).map fun v =>
    if negative then -(Binary64.ofFloat v) else Binary64.ofFloat v

end SeismicTree.Literal

import Mathlib.Data.Nat.Digits.Defs
import Mathlib.Data.List.Induction
import Mathlib.Data.List.TakeWhile
import SeismicTree.Markup.Element

/-!
# Whole numbers in text

A text is read as a whole number exactly if it is written as one: white space, a sign or none, and
decimal digits, with nothing behind them. It has to denote a number of 32 bits, which is then the
one that is read, however many digits there are; a number that is brought into 64 bits first is out
of the range of 32 bits if it was before. Characters that are not ASCII have no part in a number, so
it makes no difference whether a text is made of characters or of bytes.
-/

namespace SeismicTree.Literal

def leadingSpaces : List Char := [' ', '\t', '\n', '\x0b', '\x0c', '\r']

/-- What may stand between the white space and the digits. -/
inductive Mark where
  | none | plus | minus

def Mark.chars : Mark → List Char
  | none => []
  | plus => ['+']
  | minus => ['-']

def Mark.negative : Mark → Bool
  | minus => true
  | _ => false

def digitChar (d : Fin 10) : Char := Nat.digitChar d

/-- A whole number as it may be written. -/
structure WrittenInteger where
  spaces : List Char
  leading : ∀ c ∈ spaces, c ∈ leadingSpaces
  mark : Mark
  digits : List (Fin 10)
  digits_ne_nil : digits ≠ []

namespace WrittenInteger

def chars (w : WrittenInteger) : List Char := w.spaces ++ w.mark.chars ++ w.digits.map digitChar

/-- The digits as a natural number, the last of them counting ones. -/
def magnitude (w : WrittenInteger) : Nat := Nat.ofDigits 10 (w.digits.reverse.map Fin.val)

def value (w : WrittenInteger) : Int :=
  if w.mark.negative then -(w.magnitude : Int) else w.magnitude

end WrittenInteger

section Characters
variable {c : Char}

/-- A character between two others has a code between theirs. -/
theorem toNat_of_between {low high : Char} (h : low ≤ c ∧ c ≤ high) :
    low.toNat ≤ c.toNat ∧ c.toNat ≤ high.toNat := by
  simp only [Char.le_def, UInt32.le_iff_toNat_le] at h
  exact h

theorem isLeadingSpace_iff : isLeadingSpace c = true ↔ c ∈ leadingSpaces := by
  constructor
  · intro h
    simp only [isLeadingSpace, Bool.or_eq_true, Bool.and_eq_true, beq_iff_eq,
      decide_eq_true_eq] at h
    rcases h with rfl | h
    · exact List.mem_cons_self
    · have hcode : 9 ≤ c.toNat ∧ c.toNat ≤ 13 := toNat_of_between h
      have hcases : c.toNat = 9 ∨ c.toNat = 10 ∨ c.toNat = 11 ∨ c.toNat = 12 ∨ c.toNat = 13 := by
        omega
      simp only [leadingSpaces, List.mem_cons, List.not_mem_nil, or_false, ← Char.toNat_inj]
      exact Or.inr hcases
  · intro h
    have hall : leadingSpaces.all isLeadingSpace = true := by decide
    exact List.all_eq_true.mp hall c h

theorem isDigit_digitChar (d : Fin 10) : (digitChar d).isDigit = true := by
  revert d
  decide

theorem digitValue_digitChar (d : Fin 10) : digitValue (digitChar d) = d := by
  revert d
  decide

/-- There are ten digits. -/
theorem exists_digitChar (h : c.isDigit = true) : ∃ d : Fin 10, digitChar d = c := by
  simp only [Char.isDigit, Bool.and_eq_true, decide_eq_true_eq] at h
  have hcode : 48 ≤ c.toNat ∧ c.toNat ≤ 57 := toNat_of_between h
  have hall : ∀ d : Fin 10, (digitChar d).toNat = 48 + d := by decide
  refine ⟨⟨c.toNat - 48, by omega⟩, Char.toNat_inj.mp ?_⟩
  rw [hall]
  exact Nat.add_sub_of_le hcode.1

/-- Characters that are digits all over are written for some digits. -/
theorem exists_digits {cs : List Char} (h : ∀ c ∈ cs, c.isDigit = true) :
    ∃ ds : List (Fin 10), ds.map digitChar = cs := by
  induction cs with
  | nil => exact ⟨[], rfl⟩
  | cons c cs ih =>
    obtain ⟨hc, hcs⟩ := List.forall_mem_cons.mp h
    obtain ⟨d, rfl⟩ := exists_digitChar hc
    obtain ⟨ds, rfl⟩ := ih hcs
    exact ⟨d :: ds, rfl⟩

/-- A digit starts the digits: it is neither white space nor a sign. -/
theorem dropWhile_digitChar (d : Fin 10) (cs : List Char) :
    (digitChar d :: cs).dropWhile isLeadingSpace = digitChar d :: cs := by
  have hno : ∀ d : Fin 10, ¬ isLeadingSpace (digitChar d) = true := by decide
  exact List.dropWhile_cons_of_neg (hno d)

theorem takeSign_digitChar (d : Fin 10) (cs : List Char) :
    takeSign (digitChar d :: cs) = (false, digitChar d :: cs) := by
  have hno : ∀ d : Fin 10, digitChar d ≠ '-' ∧ digitChar d ≠ '+' := by decide
  unfold takeSign
  split
  · rename_i heq
    exact absurd (List.cons.inj heq).1 (hno d).1
  · rename_i heq
    exact absurd (List.cons.inj heq).1 (hno d).2
  · rfl

end Characters

/-- A sign is what is taken for one. -/
theorem exists_mark (cs : List Char) :
    ∃ mark : Mark, takeSign cs = (mark.negative, (takeSign cs).2) ∧
      mark.chars ++ (takeSign cs).2 = cs := by
  unfold takeSign
  split
  · exact ⟨.minus, rfl, rfl⟩
  · exact ⟨.plus, rfl, rfl⟩
  · exact ⟨.none, rfl, rfl⟩

/-- Adding digits up from the left counts each of them by its place. -/
theorem ofDigits_digitChar (ds : List (Fin 10)) :
    ofDigits 10 (ds.map digitChar) = Nat.ofDigits 10 (ds.reverse.map Fin.val) := by
  induction ds using List.reverseRecOn with
  | nil => rfl
  | append_singleton ds d ih =>
    rw [ofDigits] at ih
    rw [ofDigits, List.map_append, List.foldl_append, ih, List.reverse_append, List.map_append]
    simp only [List.map_cons, List.map_nil, List.foldl_cons, List.foldl_nil, digitValue_digitChar,
      List.reverse_singleton, List.singleton_append, Nat.ofDigits_cons]
    omega

namespace WrittenInteger
variable (w : WrittenInteger)

theorem takeSign_chars :
    takeSign ((w.mark.chars ++ w.digits.map digitChar).dropWhile isLeadingSpace) =
      (w.mark.negative, w.digits.map digitChar) := by
  obtain ⟨d, ds, h⟩ := List.exists_cons_of_ne_nil w.digits_ne_nil
  rw [h, List.map_cons]
  cases w.mark with
  | none => rw [Mark.chars, List.nil_append, dropWhile_digitChar, takeSign_digitChar]; rfl
  | plus => rfl
  | minus => rfl

theorem chars_ne_nil : w.chars ≠ [] :=
  List.append_ne_nil_of_right_ne_nil _ (List.map_eq_nil_iff.not.mpr w.digits_ne_nil)

theorem leadingInteger_chars : leadingInteger w.chars = (saturated w.value, []) := by
  have hspaces : ∀ c ∈ w.spaces, isLeadingSpace c = true := fun c hc =>
    isLeadingSpace_iff.mpr (w.leading c hc)
  have hbody : w.chars.dropWhile isLeadingSpace =
      (w.mark.chars ++ w.digits.map digitChar).dropWhile isLeadingSpace := by
    rw [chars, List.append_assoc, List.dropWhile_append_of_pos hspaces]
  have hdigits : ∀ c ∈ w.digits.map digitChar, c.isDigit = true :=
    List.forall_mem_map.mpr fun d _ => isDigit_digitChar d
  rw [leadingInteger, hbody, w.takeSign_chars]
  simp only [List.takeWhile_eq_self_iff.mpr hdigits, List.dropWhile_eq_nil_iff.mpr hdigits]
  split
  · rename_i hnone
    exact absurd (List.map_eq_nil_iff.mp hnone) w.digits_ne_nil
  · rw [ofDigits_digitChar]
    rfl

end WrittenInteger

/-- What is read as a number with nothing left behind it is written as one. -/
theorem exists_written {cs : List Char} {n : Int64} (hne : cs ≠ [])
    (h : leadingInteger cs = (n, [])) :
    ∃ w : WrittenInteger, w.chars = cs ∧ n = saturated w.value := by
  obtain ⟨mark, hsign, hbody⟩ := exists_mark (cs.dropWhile isLeadingSpace)
  rw [leadingInteger, hsign] at h
  simp only at h
  split at h
  · cases h
    exact absurd rfl hne
  · rename_i hdigits
    obtain ⟨hn, hrest⟩ := Prod.mk.inj h
    have hall := List.dropWhile_eq_nil_iff.mp hrest
    obtain ⟨ds, hds⟩ := exists_digits hall
    rw [List.takeWhile_eq_self_iff.mpr hall] at hdigits hn
    let w : WrittenInteger :=
      { spaces := cs.takeWhile isLeadingSpace
        leading := fun c hc => isLeadingSpace_iff.mp (List.mem_takeWhile_imp hc)
        mark := mark
        digits := ds
        digits_ne_nil := fun hnil => hdigits (by rw [← hds, hnil]; rfl) }
    refine ⟨w, ?_, ?_⟩
    · rw [WrittenInteger.chars, List.append_assoc, hds, hbody, List.takeWhile_append_dropWhile]
    · rw [← hn, ← hds, ofDigits_digitChar]
      rfl

/-- A number outside of 64 bits is brought to the end that it is nearer to. -/
theorem toInt_saturated (n : Int) :
    (saturated n).toInt = max (-9223372036854775808) (min n 9223372036854775807) := by
  have hmin : Int64.minValue.toInt = -9223372036854775808 := by decide
  have hmax : Int64.maxValue.toInt = 9223372036854775807 := by decide
  rw [saturated, hmin, hmax]
  split
  · rw [hmin]
    omega
  · split
    · rw [hmax]
      omega
    · rw [Int64.toInt_ofInt_of_le (by omega) (by omega)]
      omega

/-- What is read in 64 bits and fits in 32 is the number that was denoted. -/
theorem saturated_fits_iff {n : Int} {m : Int32} :
    (¬ (Int32.maxValue.toInt64 < saturated n ∨ saturated n < Int32.minValue.toInt64) ∧
      (saturated n).toInt32 = m) ↔ n = m.toInt := by
  have hmax : Int32.maxValue.toInt64.toInt = 2147483647 := by decide
  have hmin : Int32.minValue.toInt64.toInt = -2147483648 := by decide
  have hnarrow : -2147483648 ≤ (saturated n).toInt → (saturated n).toInt ≤ 2147483647 →
      (saturated n).toInt32.toInt = (saturated n).toInt := by
    intro hlow hhigh
    rw [Int64.toInt_toInt32, Int.bmod_eq_of_le (by omega) (by omega)]
  rw [Int64.lt_iff_toInt_lt, Int64.lt_iff_toInt_lt, hmax, hmin, ← Int32.toInt_inj]
  have hclamp := toInt_saturated n
  constructor
  · rintro ⟨hfits, hm⟩
    rw [hnarrow (by omega) (by omega)] at hm
    omega
  · intro hn
    have hlow := m.le_toInt
    have hhigh := m.toInt_lt
    have hsame : (saturated n).toInt = n := by omega
    exact ⟨by omega, by rw [hnarrow (by omega) (by omega), hsame, hn]⟩

theorem integer?_eq_some_iff {text : String} {n : Int32} :
    integer? text = some n ↔ ∃ w : WrittenInteger, w.chars = text.toList ∧ w.value = n.toInt := by
  cases hscan : leadingInteger text.toList with | mk m rest => ?_
  simp only [integer?, hscan]
  constructor
  · intro h
    split at h
    · cases h
    · rename_i hno
      rw [not_or, not_or, not_ne_iff] at hno
      obtain ⟨hne, rfl, hrange⟩ := hno
      obtain ⟨w, hchars, rfl⟩ := exists_written (by simpa using hne) hscan
      exact ⟨w, hchars, saturated_fits_iff.mp ⟨hrange, Option.some.inj h⟩⟩
  · rintro ⟨w, hchars, hvalue⟩
    rw [← hchars, w.leadingInteger_chars, Prod.mk.injEq] at hscan
    obtain ⟨rfl, rfl⟩ := hscan
    obtain ⟨hrange, hnarrow⟩ := saturated_fits_iff.mpr hvalue
    have hne : text ≠ "" := by
      rintro rfl
      exact w.chars_ne_nil hchars
    rw [if_neg (not_or.mpr ⟨hne, not_or.mpr ⟨not_not_intro rfl, hrange⟩⟩), hnarrow]

/-- A text is read as a whole number exactly if it is written as one that lies in the range of 32
bits, and it is read as that number. Any other text is refused with the text shown. -/
theorem readInteger_exact (text : String) :
    (∀ n : Int32, Readable.read Int32 text = .ok n ↔
      ∃ w : WrittenInteger, w.chars = text.toList ∧ w.value = n.toInt) ∧
    ((∀ w : WrittenInteger, w.chars = text.toList → ¬ (-2 ^ 31 ≤ w.value ∧ w.value ≤ 2 ^ 31 - 1)) ↔
      ∃ f, Readable.read Int32 text = .error f ∧ f.kind = .markupValidity ∧
        f.cause = .markup .notInteger ∧ f.context = { value := some text }) := by
  have hok : ∀ n : Int32, Readable.read Int32 text = .ok n ↔
      ∃ w : WrittenInteger, w.chars = text.toList ∧ w.value = n.toInt := fun n =>
    Readable.read_eq_ok.trans integer?_eq_some_iff
  refine ⟨hok, ?outside, ?refused⟩
  case outside =>
    intro outside
    cases hread : Readable.read Int32 text with
    | ok n =>
      obtain ⟨w, hchars, hvalue⟩ := (hok n).mp hread
      have hlow := n.le_toInt
      have hhigh := n.toInt_lt
      exact absurd ⟨by omega, by omega⟩ (outside w hchars)
    | error f =>
      obtain ⟨_, rfl⟩ := Readable.read_eq_error.mp hread
      exact ⟨_, rfl, rfl, rfl, rfl⟩
  case refused =>
    rintro ⟨f, hread, _⟩ w hchars ⟨hlow, hhigh⟩
    have hvalue : (Int32.ofInt w.value).toInt = w.value :=
      Int32.toInt_ofInt_of_le hlow (by omega)
    rw [(hok _).mpr ⟨w, hchars, hvalue.symm⟩] at hread
    cases hread

end SeismicTree.Literal

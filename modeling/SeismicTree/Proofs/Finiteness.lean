import Mathlib
import SeismicTree.Proofs.NumberOrder
import SeismicTree.Text.Literal

/-!
# Finite numbers

A text that is read as a number is finite or a NaN, because an infinity is refused in words and in
digits. Only the sum of two infinities of opposite signs is a NaN that arises from numbers, so a
finite number can be added to any number without making one. That a sum of finite numbers is finite
is not claimed.
-/

namespace SeismicTree

open Float.Model (UnpackedFloat Format)
open Float.Model.UnpackedFloat

theorem isNaN_unpack_packComponents (s : Sign) (e : BitVec 11) (m : BitVec 52) :
    (unpack .binary64 (packComponents .binary64 s e m)).isNaN =
      decide (e = 2047#11 ∧ m ≠ 0#52) := by
  by_cases he : e = 2047#11 <;> by_cases hz : e = 0#11 <;> by_cases hm : m = 0#52 <;>
    simp [unpack, he, hz, hm, UnpackedFloat.isNaN]

theorem isFinite_unpack_packComponents (s : Sign) (e : BitVec 11) (m : BitVec 52) :
    (unpack .binary64 (packComponents .binary64 s e m)).isFinite = decide (e ≠ 2047#11) := by
  by_cases he : e = 2047#11 <;> by_cases hz : e = 0#11 <;> by_cases hm : m = 0#52 <;>
    simp [unpack, he, hz, hm, UnpackedFloat.isFinite]

/-- A finite number is packed as a finite one, or as an infinity if its exponent is too large. -/
theorem pack_finite (s : Sign) (m : Nat) (e : Int) (pos : 0 < m) :
    ∃ E M, UnpackedFloat.pack .binary64 (.finite s m e pos) = packComponents .binary64 s E M ∧
      (E = 2047#11 → M = 0#52 ∧ 2047 ≤ (e + 1075).toNat) := by
  have hbias : e + (Format.binary64.exponentBias : Int) + (52 : Nat) = e + 1075 := by
    have h : Format.binary64.exponentBias = 1023 := by decide
    rw [h]
    omega
  simp only [UnpackedFloat.pack, packedInfinity, hbias]
  split
  · exact ⟨_, _, rfl, fun _ => ⟨rfl, by omega⟩⟩
  · split
    · refine ⟨_, _, rfl, fun heq => ?_⟩
      have h := congrArg BitVec.toNat heq
      simp only [BitVec.toNat_ofNat] at h
      omega
    · exact ⟨_, _, rfl, fun heq => absurd heq (by decide)⟩

/-- What is unpacked as a finite number has an exponent that can be packed again. -/
theorem exponent_unpack {b : BitVec 64} {s : Sign} {m : Nat} {e : Int} {pos : 0 < m}
    (h : unpack .binary64 b = .finite s m e pos) : (e + 1075).toNat < 2047 := by
  have hbias : Format.binary64.exponentBias = 1023 := by decide
  have hlt : (@unpackExponent .binary64 b).toNat < 2048 := BitVec.isLt _
  simp only [unpack, hbias] at h
  split at h
  · split at h <;> cases h
  · rename_i hne
    have hmax : (@unpackExponent .binary64 b).toNat ≠ 2047 :=
      fun heq => hne (BitVec.eq_of_toNat_eq heq)
    split at h
    · rename_i hzero
      split at h
      · cases h
      · injection h with _ _ he
        have hexponent : (@unpackExponent .binary64 b).toNat = 0 :=
          congrArg BitVec.toNat hzero
        omega
    · injection h with _ _ he
      omega

/-- Packing makes a NaN of a NaN alone. -/
theorem isNaN_unpack_pack (f : UnpackedFloat) :
    (unpack .binary64 (UnpackedFloat.pack .binary64 f)).isNaN = f.isNaN := by
  cases f with
  | notANumber => decide
  | infinity s => exact isNaN_unpack_packComponents s _ _
  | zero s => exact isNaN_unpack_packComponents s _ _
  | finite s m e pos =>
    obtain ⟨E, M, hpack, hinfinite⟩ := pack_finite s m e pos
    rw [hpack, isNaN_unpack_packComponents]
    exact decide_eq_false fun h => h.2 (hinfinite h.1).1

theorem isNaN_normalize (spec : Format) (m e : Int) (zeroSign : Sign) :
    (UnpackedFloat.normalize spec m e zeroSign).isNaN = false := by
  have hround : ∀ s n e, (UnpackedFloat.round spec s n e).isNaN = false := by
    intro s n e
    simp only [UnpackedFloat.round, roundWithAccuracy]
    split <;> rfl
  unfold UnpackedFloat.normalize
  split
  · exact hround _ _ _
  · rfl
  · exact hround _ _ _

theorem isNaN_add_unpacked {spec : Format} {a b : UnpackedFloat} (ha : a.isNaN = false)
    (hb : b.isFinite = true) : (UnpackedFloat.add spec a b).isNaN = false := by
  cases b with
  | notANumber => cases hb
  | infinity s => cases hb
  | zero s =>
    cases a with
    | notANumber => cases ha
    | infinity s' => rfl
    | zero s' =>
      simp only [UnpackedFloat.add]
      split <;> rfl
    | finite s' m e pos => rfl
  | finite s m e pos =>
    cases a with
    | notANumber => cases ha
    | infinity s' => rfl
    | zero s' => rfl
    | finite s' m' e' pos' => exact isNaN_normalize _ _ _ _

theorem isNaN_eq_false_of_isFinite {a : UnpackedFloat} (h : a.isFinite = true) :
    a.isNaN = false := by
  cases a with
  | notANumber => cases h
  | infinity s => rfl
  | zero s => rfl
  | finite s m e pos => rfl

namespace Binary64

def isFinite (x : Binary64) : Bool := x.value.isFinite

variable {x y : Binary64}

theorem isNaN_neg : (-x).isNaN = x.isNaN := by
  change (unpack .binary64 (UnpackedFloat.pack .binary64 x.value.toModel.unpack.neg)).isNaN =
    x.value.toModel.unpack.isNaN
  rw [isNaN_unpack_pack]
  cases x.value.toModel.unpack <;> rfl

theorem isFinite_neg (h : x.isFinite = true) : (-x).isFinite = true := by
  change x.value.toModel.unpack.isFinite = true at h
  change (unpack .binary64 (UnpackedFloat.pack .binary64 x.value.toModel.unpack.neg)).isFinite =
    true
  cases hvalue : x.value.toModel.unpack with
  | notANumber => rw [hvalue] at h; cases h
  | infinity s => rw [hvalue] at h; cases h
  | zero s => exact isFinite_unpack_packComponents (-s) 0 0
  | finite s m e pos =>
    -- The opposite number has the same exponent, which was packed before.
    have hexponent := exponent_unpack hvalue
    obtain ⟨E, M, hpack, hinfinite⟩ := pack_finite (-s) m e pos
    have hE : E ≠ 2047#11 := fun heq => by
      have hlarge := (hinfinite heq).2
      omega
    rw [UnpackedFloat.neg, hpack, isFinite_unpack_packComponents]
    exact decide_eq_true hE

/-- A finite number added to a number makes no NaN. -/
theorem isNaN_add_of_isFinite (hx : x.isNaN = false) (hy : y.isFinite = true) :
    (x + y).isNaN = false := by
  have hy' : y.isNaN = false := isNaN_eq_false_of_isFinite hy
  have hsum : x + y = arising (x.value + y.value) := by
    change combine _ x y = _
    simp [combine, hx, hy']
  rw [hsum]
  change (unpack .binary64 (UnpackedFloat.pack .binary64 (UnpackedFloat.add .binary64
    x.value.toModel.unpack y.value.toModel.unpack))).isNaN = false
  rw [isNaN_unpack_pack]
  exact isNaN_add_unpacked hx hy

end Binary64

namespace Literal

theorem isFinite_of_guard {v w : Float} (h : (if v.isFinite then some v else none) = some w) :
    w.isFinite = true := by
  split at h
  · cases h; assumption
  · cases h

theorem decimal?_isFinite {m : Nat} {e : Int} {v : Float} (h : decimal? m e = some v) :
    v.isFinite = true := by
  simp only [decimal?] at h
  split at h
  · cases h; decide
  · split at h
    · cases h
    · exact isFinite_of_guard h

theorem binary?_isFinite {m : Nat} {e : Int} {v : Float} (h : binary? m e = some v) :
    v.isFinite = true := by
  rw [binary?] at h
  split at h
  · cases h; decide
  · split at h
    · cases h
    · exact isFinite_of_guard h

theorem decimalForm?_isFinite {cs : List Char} {v : Float} (h : decimalForm? cs = some v) :
    v.isFinite = true := by
  simp only [decimalForm?] at h
  split at h
  · cases h
  · split at h
    · cases h
    · exact decimal?_isFinite h

theorem hexForm?_isFinite {cs : List Char} {v : Float} (h : hexForm? cs = some v) :
    v.isFinite = true := by
  simp only [hexForm?] at h
  split at h
  · cases h
  · split at h
    · cases h
    · exact binary?_isFinite h

/-- A number without its sign is a NaN in words, or finite. -/
theorem magnitude?_eq_some {cs : List Char} {v : Float} (h : magnitude? cs = some v) :
    v.isNaN = true ∨ v.isFinite = true := by
  simp only [magnitude?] at h
  split at h
  · cases h
    exact Or.inl (by decide +kernel)
  · split at h
    · exact Or.inr (hexForm?_isFinite h)
    · exact Or.inr (hexForm?_isFinite h)
    · exact Or.inr (decimalForm?_isFinite h)

/-- No text is read as an infinity. -/
theorem number?_eq_some {text : String} {x : Binary64} (h : number? text = some x) :
    x.isNaN = true ∨ x.isFinite = true := by
  simp only [number?] at h
  obtain ⟨v, hv, rfl⟩ := Option.map_eq_some_iff.mp h
  have hplain : (Binary64.ofFloat v).isNaN = true ∨ (Binary64.ofFloat v).isFinite = true :=
    magnitude?_eq_some hv
  split
  · rw [Binary64.isNaN_neg]
    exact hplain.imp_right Binary64.isFinite_neg
  · exact hplain

end Literal

end SeismicTree

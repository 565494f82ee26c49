import SeismicTree.Number.Closeness

/-!
# The order of numbers

Two numbers that are not NaN can be compared, so what is neither too small nor too large lies in
between. A NaN passes no comparison, and a sum or a difference with a NaN is one. How sums and
differences are rounded plays no part.
-/

namespace SeismicTree

open Float.Model (UnpackedFloat)

/-- Only a NaN cannot be compared. -/
theorem compare_eq_none_iff {a b : UnpackedFloat} :
    a.compare b = none ↔ a.isNaN = true ∨ b.isNaN = true := by
  constructor
  · intro h
    -- The signs decide between numbers, so they are split as well.
    rcases a with ⟨_ | _⟩ | _ | _ | ⟨_ | _⟩ <;> rcases b with ⟨_ | _⟩ | _ | _ | ⟨_ | _⟩ <;>
      first
        | exact Or.inl rfl
        | exact Or.inr rfl
        | cases h
  · rintro (h | h)
    · cases a with
      | notANumber => rfl
      | infinity s => cases h
      | zero s => cases h
      | finite s m e pos => cases h
    · cases b with
      | notANumber => cases a <;> rfl
      | infinity s => cases h
      | zero s => cases h
      | finite s m e pos => cases h

/-- The outcome of a comparison turns round with its operands. -/
theorem compare_swap (a b : UnpackedFloat) :
    (a.compare b).map Ordering.swap = b.compare a := by
  have hmagnitude : ∀ (e e' : Int) (m m' : Nat),
      ((compare e e').then (compare m m')).swap = (compare e' e).then (compare m' m) := by
    intro e e' m m'
    rw [Ordering.swap_then, Int.compare_swap, Nat.compare_swap]
  rcases a with ⟨_ | _⟩ | _ | _ | ⟨_ | _, m, e⟩ <;>
    rcases b with ⟨_ | _⟩ | _ | _ | ⟨_ | _, m', e'⟩ <;>
      first
        | rfl
        | exact congrArg some (hmagnitude e e' m m')
        | exact congrArg some (congrArg Ordering.swap (hmagnitude e e' m m'))

namespace Binary64

variable {x y : Binary64}

def order? (x y : Binary64) : Option Ordering :=
  x.value.toModel.unpack.compare y.value.toModel.unpack

theorem lt_iff_order? : x < y ↔ order? x y = some .lt := by
  show decide (x.value.toModel < y.value.toModel) = true ↔ _
  rw [decide_eq_true_eq]
  exact beq_iff_eq

theorem le_iff_order? : x ≤ y ↔ (order? x y).any Ordering.isLE = true := by
  show decide (x.value.toModel ≤ y.value.toModel) = true ↔ _
  rw [decide_eq_true_eq]
  rfl

theorem order?_eq_none_iff : order? x y = none ↔ x.isNaN = true ∨ y.isNaN = true :=
  compare_eq_none_iff

theorem order?_swap (x y : Binary64) : (order? x y).map Ordering.swap = order? y x :=
  compare_swap _ _

theorem le_of_lt (h : x < y) : x ≤ y := by
  rw [le_iff_order?, lt_iff_order?.mp h]
  rfl

theorem not_le_of_isNaN (h : x.isNaN = true) : ¬ x ≤ y := by
  rw [le_iff_order?, order?_eq_none_iff.mpr (Or.inl h)]
  exact Bool.false_ne_true

theorem not_isNaN_of_le (h : x ≤ y) : x.isNaN = false ∧ y.isNaN = false := by
  have hnone : ¬ (x.isNaN = true ∨ y.isNaN = true) := fun hnan => by
    rw [le_iff_order?, order?_eq_none_iff.mpr hnan] at h
    exact Bool.false_ne_true h
  exact ⟨Bool.eq_false_iff.mpr fun hx => hnone (Or.inl hx),
    Bool.eq_false_iff.mpr fun hy => hnone (Or.inr hy)⟩

/-- What is less than a number is one, and so is what it is less than. -/
theorem not_isNaN_of_lt (h : x < y) : x.isNaN = false ∧ y.isNaN = false :=
  not_isNaN_of_le (le_of_lt h)

theorem exists_order? (hx : x.isNaN = false) (hy : y.isNaN = false) : ∃ o, order? x y = some o := by
  refine Option.ne_none_iff_exists'.mp fun hnone => ?_
  rcases order?_eq_none_iff.mp hnone with hnan | hnan
  · rw [hx] at hnan; cases hnan
  · rw [hy] at hnan; cases hnan

theorem lt_of_not_le (hx : x.isNaN = false) (hy : y.isNaN = false) (h : ¬ x ≤ y) : y < x := by
  obtain ⟨o, ho⟩ := exists_order? hx hy
  rw [le_iff_order?, ho] at h
  rw [lt_iff_order?, ← order?_swap, ho]
  cases o with
  | gt => rfl
  | lt => exact absurd rfl h
  | eq => exact absurd rfl h

theorem le_of_not_lt (hx : x.isNaN = false) (hy : y.isNaN = false) (h : ¬ x < y) : y ≤ x := by
  obtain ⟨o, ho⟩ := exists_order? hx hy
  rw [lt_iff_order?, ho] at h
  rw [le_iff_order?, ← order?_swap, ho]
  cases o with
  | lt => exact absurd rfl h
  | gt => rfl
  | eq => rfl

theorem not_le_of_lt (h : x < y) : ¬ y ≤ x := by
  rw [le_iff_order?, ← order?_swap, lt_iff_order?.mp h]
  exact Bool.false_ne_true

theorem not_lt_of_le (h : x ≤ y) : ¬ y < x := fun hlt => not_le_of_lt hlt h

/-- An operation hands on a NaN among its operands. -/
theorem isNaN_combine (op : Float → Float → Float) (h : x.isNaN = true ∨ y.isNaN = true) :
    (combine op x y).isNaN = true := by
  unfold combine
  by_cases hx : x.isNaN = true
  · rwa [if_pos hx]
  · have hy := h.resolve_left hx
    rwa [if_neg hx, if_pos hy]

theorem isNaN_add (h : x.isNaN = true ∨ y.isNaN = true) : (x + y).isNaN = true :=
  isNaN_combine _ h

theorem isNaN_sub (h : x.isNaN = true ∨ y.isNaN = true) : (x - y).isNaN = true :=
  isNaN_combine _ h

theorem isNaN_abs (h : x.isNaN = true) : x.abs.isNaN = true := by
  change x.value.toModel.unpack.isNaN = true at h
  change (Float.Model.pack x.value.toModel.unpack.abs).isNaN = true
  cases hvalue : x.value.toModel.unpack with
  | notANumber => decide
  | infinity s => rw [hvalue] at h; cases h
  | zero s => rw [hvalue] at h; cases h
  | finite s m e => rw [hvalue] at h; cases h

end Binary64

theorem isNaN_foldl_add {start : Binary64} {weights : List Binary64}
    (h : start.isNaN = true ∨ ∃ w ∈ weights, w.isNaN = true) :
    (weights.foldl (· + ·) start).isNaN = true := by
  induction weights generalizing start with
  | nil => simpa using h
  | cons w weights ih =>
    refine ih ?_
    rcases h with hstart | ⟨w', hw', hnan⟩
    · exact Or.inl (Binary64.isNaN_add (Or.inl hstart))
    · rcases List.mem_cons.mp hw' with rfl | hw'
      · exact Or.inl (Binary64.isNaN_add (Or.inr hnan))
      · exact Or.inr ⟨w', hw', hnan⟩

/-- Weights whose sum is close to a number are numbers. -/
theorem not_isNaN_of_isClose {expected tolerance : Binary64} {weights : List Binary64}
    (close : Binary64.isClose expected (totalWeight weights) tolerance = true) :
    ∀ w ∈ weights, w.isNaN = false := by
  intro w hw
  refine Bool.eq_false_iff.mpr fun hnan => ?_
  have htotal : (totalWeight weights).isNaN = true := isNaN_foldl_add (Or.inr ⟨w, hw, hnan⟩)
  have hdistance := Binary64.isNaN_abs (Binary64.isNaN_sub (x := expected) (Or.inr htotal))
  exact Binary64.not_le_of_isNaN hdistance (of_decide_eq_true close)

end SeismicTree

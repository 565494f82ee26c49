import SeismicTree.Proofs.GeometryPoints
import Mathlib.Data.List.Forall2

/-!
# Lists of positions

A list of positions is read if its tokens are numbers that make up whole positions, at least one of
them, and every position is a point. The points hold the numbers of the list and nothing else, in
order: the numbers at a multiple of the dimension and behind it make up a point, and depths that are
not in the list are zero. Which of several faults of a list is reported is not described.
-/

namespace SeismicTree.Geometry

namespace Dimension

def count : Dimension → Nat
  | plane => 2
  | space => 3

theorem count_pos (d : Dimension) : 0 < d.count := by
  cases d <;> decide

/-- The numbers that a list of positions holds for a point. -/
def coordinates : Dimension → Point → List Binary64
  | plane, p => [p.longitude, p.latitude]
  | space, p => [p.longitude, p.latitude, p.depth]

/-- In the plane there is no depth but zero. -/
def Holds : Dimension → Point → Prop
  | plane, p => p.depth = 0
  | space, _ => True

/-- The position with a number in a list, counting from zero. -/
def positionAt (d : Dimension) (xs : List Binary64) (k : Nat) : Point where
  longitude := xs.getD (k * d.count) 0
  latitude := xs.getD (k * d.count + 1) 0
  depth := match d with
    | plane => 0
    | space => xs.getD (k * d.count + 2) 0

end Dimension

/-- The tokens of a text are these numbers, in order. -/
def Converts (text : String) (xs : List Binary64) : Prop :=
  List.Forall₂ (fun token x => Literal.number? token = some x) (Text.tokens text) xs

theorem numbers_eq_ok {text : String} {xs : List Binary64} :
    numbers text = .ok xs ↔ Converts text xs := by
  constructor
  · intro h
    exact (mapM_eq_ok h).imp fun _ _ => Readable.read_eq_ok.mp
  · intro h
    rw [Converts] at h
    exact mapM_eq_ok_of_forall₂ (h.imp fun _ _ => Readable.read_eq_ok.mpr)

section Positions
variable {d : Dimension} {xs : List Binary64} {ps : List Point}

theorem positions?_coordinates {p : Point} (holds : d.Holds p) (xs : List Binary64) :
    positions? d (d.coordinates p ++ xs) = (positions? d xs).map (p :: ·) := by
  obtain ⟨longitude, latitude, depth⟩ := p
  cases d with
  | plane =>
    cases holds
    rfl
  | space => rfl

/-- The positions of a list are the points that hold its numbers. -/
theorem positions?_eq_some_iff :
    positions? d xs = some ps ↔ (∀ p ∈ ps, d.Holds p) ∧ ps.flatMap d.coordinates = xs := by
  constructor
  · intro h
    fun_induction positions? d xs generalizing ps with
    | case1 d =>
      cases h
      exact ⟨fun _ h => absurd h List.not_mem_nil, rfl⟩
    | case2 x y rest ih =>
      obtain ⟨qs, hqs, rfl⟩ := Option.map_eq_some_iff.mp h
      obtain ⟨hholds, hrest⟩ := ih hqs
      exact ⟨List.forall_mem_cons.mpr ⟨rfl, hholds⟩, by rw [List.flatMap_cons, hrest]; rfl⟩
    | case3 x y z rest ih =>
      obtain ⟨qs, hqs, rfl⟩ := Option.map_eq_some_iff.mp h
      obtain ⟨hholds, hrest⟩ := ih hqs
      exact ⟨List.forall_mem_cons.mpr ⟨trivial, hholds⟩, by rw [List.flatMap_cons, hrest]; rfl⟩
    | case4 => cases h
  · rintro ⟨holds, rfl⟩
    induction ps with
    | nil => rw [List.flatMap_nil, positions?]
    | cons p ps ih =>
      obtain ⟨hp, hps⟩ := List.forall_mem_cons.mp holds
      rw [List.flatMap_cons, positions?_coordinates hp, ih hps]
      rfl

theorem positionAt_zero {p : Point} (holds : d.Holds p) (xs : List Binary64) :
    d.positionAt (d.coordinates p ++ xs) 0 = p := by
  obtain ⟨longitude, latitude, depth⟩ := p
  cases d with
  | plane =>
    cases holds
    rfl
  | space => rfl

theorem positionAt_succ (p : Point) (xs : List Binary64) (k : Nat) :
    d.positionAt (d.coordinates p ++ xs) (k + 1) = d.positionAt xs k := by
  cases d with
  | plane =>
    simp only [Dimension.positionAt, Nat.succ_mul]
    rfl
  | space =>
    simp only [Dimension.positionAt, Nat.succ_mul]
    rfl

/-- The numbers of points are theirs, at multiples of the dimension. -/
theorem positionAt_flatMap (holds : ∀ p ∈ ps, d.Holds p) :
    (List.range ps.length).map (d.positionAt (ps.flatMap d.coordinates)) = ps := by
  induction ps with
  | nil => rfl
  | cons p ps ih =>
    obtain ⟨hp, hps⟩ := List.forall_mem_cons.mp holds
    rw [List.flatMap_cons, List.length_cons, List.range_succ_eq_map, List.map_cons, List.map_map,
      positionAt_zero hp]
    congr 1
    calc (List.range ps.length).map
          (d.positionAt (d.coordinates p ++ ps.flatMap d.coordinates) ∘ Nat.succ)
        = (List.range ps.length).map (d.positionAt (ps.flatMap d.coordinates)) :=
          List.map_congr_left fun k _ => positionAt_succ p _ k
      _ = ps := ih hps

theorem length_coordinates (p : Point) : (d.coordinates p).length = d.count := by
  cases d <;> rfl

theorem length_flatMap_coordinates (ps : List Point) :
    (ps.flatMap d.coordinates).length = ps.length * d.count := by
  induction ps with
  | nil => exact (Nat.zero_mul _).symm
  | cons p ps ih =>
    rw [List.flatMap_cons, List.length_append, length_coordinates, ih, List.length_cons,
      Nat.succ_mul, Nat.add_comm]

/-- A list that is long enough has a position in front. -/
theorem exists_coordinates (long : d.count ≤ xs.length) :
    ∃ p rest, d.Holds p ∧ d.coordinates p ++ rest = xs := by
  cases d with
  | plane =>
    match xs, long with
    | x :: y :: rest, _ => exact ⟨⟨x, y, 0⟩, rest, rfl, rfl⟩
  | space =>
    match xs, long with
    | x :: y :: z :: rest, _ => exact ⟨⟨x, y, z⟩, rest, trivial, rfl⟩

/-- Whole positions are read, as many as there are. -/
theorem exists_positions {k : Nat} (whole : xs.length = k * d.count) :
    ∃ ps, positions? d xs = some ps := by
  induction k generalizing xs with
  | zero =>
    rw [Nat.zero_mul] at whole
    rw [List.eq_nil_of_length_eq_zero whole]
    exact ⟨[], by rw [positions?]⟩
  | succ k ih =>
    rw [Nat.succ_mul] at whole
    have long : d.count ≤ xs.length := whole ▸ Nat.le_add_left _ _
    obtain ⟨p, rest, holds, rfl⟩ := exists_coordinates long
    rw [List.length_append, length_coordinates, Nat.add_comm] at whole
    obtain ⟨ps, hps⟩ := ih (Nat.add_right_cancel whole)
    exact ⟨p :: ps, by rw [positions?_coordinates holds, hps]; rfl⟩

/-- A list is read as positions if its numbers make up whole ones, and these are the numbers at
multiples of the dimension. -/
theorem positions?_eq_some_iff_range :
    positions? d xs = some ps ↔
      d.count ∣ xs.length ∧ (List.range (xs.length / d.count)).map (d.positionAt xs) = ps := by
  have read : ∀ {qs}, positions? d xs = some qs →
      (List.range (xs.length / d.count)).map (d.positionAt xs) = qs := by
    intro qs h
    obtain ⟨holds, rfl⟩ := positions?_eq_some_iff.mp h
    rw [length_flatMap_coordinates, Nat.mul_div_cancel _ d.count_pos, positionAt_flatMap holds]
  constructor
  · intro h
    refine ⟨?_, read h⟩
    rw [← (positions?_eq_some_iff.mp h).2, length_flatMap_coordinates]
    exact Nat.dvd_mul_left _ _
  · rintro ⟨⟨k, hk⟩, rfl⟩
    rw [Nat.mul_comm] at hk
    obtain ⟨qs, hqs⟩ := exists_positions hk
    rw [hqs, read hqs]

end Positions

theorem checkedPoint_eq_ok {p q : Point} :
    checkedPoint p = .ok q ↔ ¬ p.depth < 0 ∧ p.Checked ∧ p = q := by
  rw [checkedPoint, check_eq_ok]
  refine and_congr_right fun _ => ?_
  constructor
  · intro h
    obtain ⟨_, _, _, rfl⟩ := Point.make_eq_ok.mp h
    exact ⟨h, rfl⟩
  · rintro ⟨h, rfl⟩
    exact h

/-- Points are taken as they are, or refused. -/
theorem checkedPoints_eq_ok {ps qs : List Point} :
    ps.mapM checkedPoint = .ok qs ↔ (∀ p ∈ ps, ¬ p.depth < 0 ∧ p.Checked) ∧ ps = qs := by
  induction ps generalizing qs with
  | nil =>
    constructor
    · intro h
      cases h
      exact ⟨fun _ h => absurd h List.not_mem_nil, rfl⟩
    · rintro ⟨_, rfl⟩
      rfl
  | cons p ps ih =>
    rw [mapM_cons_eq_ok, List.forall_mem_cons]
    constructor
    · rintro ⟨q, rest, hq, hrest, rfl⟩
      obtain ⟨hdepth, hchecked, rfl⟩ := checkedPoint_eq_ok.mp hq
      obtain ⟨hps, rfl⟩ := ih.mp hrest
      exact ⟨⟨⟨hdepth, hchecked⟩, hps⟩, rfl⟩
    · rintro ⟨⟨⟨hdepth, hchecked⟩, hps⟩, rfl⟩
      exact ⟨p, ps, checkedPoint_eq_ok.mpr ⟨hdepth, hchecked, rfl⟩, ih.mpr ⟨hps, rfl⟩, rfl⟩

theorem points_eq_ok {list : Element} {d : Dimension} {ps : List Point} :
    points list d = .ok ps ↔
      ∃ xs, Converts list.text xs ∧ positions? d xs = some ps ∧ ps ≠ [] ∧
        ∀ p ∈ ps, ¬ p.depth < 0 ∧ p.Checked := by
  rw [points, bind_eq_ok]
  refine exists_congr fun xs => and_congr numbers_eq_ok ?_
  constructor
  · intro h
    split at h
    · cases h
    · cases h
    · rename_i qs nonempty hread
      obtain ⟨hall, rfl⟩ := checkedPoints_eq_ok.mp h
      exact ⟨hread, nonempty, hall⟩
  · rintro ⟨hread, nonempty, hall⟩
    rw [hread]
    cases ps with
    | nil => exact absurd rfl nonempty
    | cons p ps => exact checkedPoints_eq_ok.mpr ⟨hall, rfl⟩

/-- A list of positions is read exactly if its tokens are numbers that make up whole positions, at
least one, no depth is negative, and all coordinates are in range. The points that are read are the
ones that hold the numbers of the list in order, those of a list in the plane at depth zero. -/
theorem points_exact (list : Element) (d : Dimension) :
    ((∃ ps, points list d = .ok ps) ↔
      ∃ xs, Converts list.text xs ∧ 0 < xs.length ∧ d.count ∣ xs.length ∧
        ∀ k < xs.length / d.count,
          ¬ (d.positionAt xs k).depth < 0 ∧ (d.positionAt xs k).Checked) ∧
    ∀ ps, points list d = .ok ps ↔
      Converts list.text (ps.flatMap d.coordinates) ∧ ps ≠ [] ∧
        ∀ p ∈ ps, d.Holds p ∧ ¬ p.depth < 0 ∧ p.Checked := by
  constructor
  · simp only [points_eq_ok, positions?_eq_some_iff_range]
    constructor
    · rintro ⟨_, xs, hxs, ⟨whole, rfl⟩, nonempty, hall⟩
      refine ⟨xs, hxs, ?_, whole, fun k hk => ?_⟩
      · refine List.length_pos_iff.mpr fun hnil => nonempty ?_
        rw [hnil, List.length_nil, Nat.zero_div]
        rfl
      · exact hall _ (List.mem_map_of_mem (List.mem_range.mpr hk))
    · rintro ⟨xs, hxs, pos, whole, hall⟩
      refine ⟨_, xs, hxs, ⟨whole, rfl⟩, fun hnil => ?_, fun p hp => ?_⟩
      · have hnone := List.range_eq_nil.mp (List.map_eq_nil_iff.mp hnil)
        have hsome := Nat.div_pos (Nat.le_of_dvd pos whole) d.count_pos
        exact absurd hnone (Nat.ne_of_gt hsome)
      · obtain ⟨k, hk, rfl⟩ := List.mem_map.mp hp
        exact hall k (List.mem_range.mp hk)
  · intro ps
    simp only [points_eq_ok, positions?_eq_some_iff]
    constructor
    · rintro ⟨_, hxs, ⟨holds, rfl⟩, nonempty, hall⟩
      exact ⟨hxs, nonempty, fun p hp => ⟨holds p hp, hall p hp⟩⟩
    · rintro ⟨hxs, nonempty, hall⟩
      exact ⟨_, hxs, ⟨fun p hp => (hall p hp).1, rfl⟩, nonempty, fun p hp => (hall p hp).2⟩

end SeismicTree.Geometry

import Mathlib

/-!
# The order of doubles

Doubles stand in a row: those below zero by falling exponent and mantissa, the two zeros in one place,
those above zero by rising exponent and mantissa, and an infinity at either end.  What is no number
has no place.

    x < y ↔ ∃ p ∈ place x, ∃ q ∈ place y, p < q                                 (lt_iff_place)
    x ≤ y ↔ ∃ p ∈ place x, ∃ q ∈ place y, p ≤ q                                 (le_iff_place)

So the strict order is transitive, and two doubles are comparable unless one is no number.
-/

namespace TradePlan

open Float.Model

/-! ## Places -/

/-- The place of an unpacked double in the row. -/
def placeOf : UnpackedFloat → Option (Int ×ₗ Int ×ₗ Int)
  | .notANumber => none
  | .infinity .negative => some (toLex (-2, toLex (0, 0)))
  | .finite .negative m e _ => some (toLex (-1, toLex (-e, -m)))
  | .zero _ => some (toLex (0, toLex (0, 0)))
  | .finite .positive m e _ => some (toLex (1, toLex (e, m)))
  | .infinity .positive => some (toLex (2, toLex (0, 0)))

/-- The place of a double in the row. -/
def place (x : Float) : Option (Int ×ₗ Int ×ₗ Int) := placeOf x.toModel.unpack

theorem compare_toLex {α : Type} [LinearOrder α] (i j : Int) (p q : α) :
    compare (toLex (i, p)) (toLex (j, q)) = (compare i j).then (compare p q) := rfl

theorem compare_natCast (m n : Nat) : compare (m : Int) n = compare m n := by
  simp only [compare, compareOfLessAndEq, Nat.cast_lt, Nat.cast_inj]

theorem compare_neg (i j : Int) : compare (-i) (-j) = (compare i j).swap := by
  rw [← Std.OrientedCmp.eq_swap]
  simp only [compare, compareOfLessAndEq, Int.neg_lt_neg_iff, Int.neg_inj, eq_comm]

/-- Doubles are compared by their places. -/
theorem compare_eq_places (a b : UnpackedFloat) :
    a.compare b = (placeOf a).bind fun p => (placeOf b).map fun q => compare p q := by
  have hlt : ∀ {i j : Int} (p q : Int ×ₗ Int), i < j → compare (toLex (i, p)) (toLex (j, q)) = .lt :=
    fun p q h => by rw [compare_toLex, compare_lt_iff_lt.mpr h]; rfl
  have hgt : ∀ {i j : Int} (p q : Int ×ₗ Int), j < i → compare (toLex (i, p)) (toLex (j, q)) = .gt :=
    fun p q h => by rw [compare_toLex, compare_gt_iff_gt.mpr h]; rfl
  cases a with
  | notANumber => rfl
  | infinity s =>
    cases b with
    | notANumber => cases s <;> rfl
    | infinity t => cases s <;> cases t <;> decide
    | zero t => cases s <;> cases t <;> decide
    | finite t n f _ => cases s <;> cases t <;> simp [placeOf, UnpackedFloat.compare, hlt, hgt]
  | zero s =>
    cases b with
    | notANumber => rfl
    | infinity t => cases s <;> cases t <;> decide
    | zero t => cases s <;> cases t <;> decide
    | finite t n f _ => cases s <;> cases t <;> simp [placeOf, UnpackedFloat.compare, hlt, hgt]
  | finite s m e _ =>
    cases b with
    | notANumber => cases s <;> rfl
    | infinity t => cases s <;> cases t <;> simp [placeOf, UnpackedFloat.compare, hlt, hgt]
    | zero t => cases s <;> cases t <;> simp [placeOf, UnpackedFloat.compare, hlt, hgt]
    | finite t n f _ =>
      cases s <;> cases t <;>
        simp [placeOf, UnpackedFloat.compare, hlt, hgt, compare_toLex, compare_neg, compare_natCast,
          Ordering.swap_then]

/-! ## Comparisons -/

theorem lt_iff_place {x y : Float} : x < y ↔ ∃ p ∈ place x, ∃ q ∈ place y, p < q := by
  have hmodel : x < y ↔ UnpackedFloat.lt x.toModel.unpack y.toModel.unpack = true :=
    decide_eq_true_iff
  rw [hmodel, UnpackedFloat.lt, compare_eq_places, place, place]
  cases placeOf x.toModel.unpack <;> cases placeOf y.toModel.unpack <;> simp [compare_lt_iff_lt]

theorem le_iff_place {x y : Float} : x ≤ y ↔ ∃ p ∈ place x, ∃ q ∈ place y, p ≤ q := by
  have hmodel : x ≤ y ↔ UnpackedFloat.le x.toModel.unpack y.toModel.unpack = true :=
    decide_eq_true_iff
  rw [hmodel, UnpackedFloat.le, compare_eq_places, place, place]
  cases placeOf x.toModel.unpack <;> cases placeOf y.toModel.unpack <;> simp [← compare_le_iff_le, Ordering.isLE_iff_ne_gt]

theorem double_lt_trans {x y z : Float} (hxy : x < y) (hyz : y < z) : x < z := by
  obtain ⟨p, hp, q, hq, hpq⟩ := lt_iff_place.mp hxy
  obtain ⟨q', hq', r, hr, hqr⟩ := lt_iff_place.mp hyz
  obtain rfl := Option.mem_unique hq hq'
  exact lt_iff_place.mpr ⟨p, hp, r, hr, hpq.trans hqr⟩

instance instTransFloatLt : Trans (fun x y : Float => x < y) (fun x y => x < y) (fun x y => x < y) where
  trans := double_lt_trans

theorem double_le_of_lt {x y : Float} (h : x < y) : x ≤ y := by
  obtain ⟨p, hp, q, hq, hpq⟩ := lt_iff_place.mp h
  exact le_iff_place.mpr ⟨p, hp, q, hq, le_of_lt hpq⟩

theorem double_lt_of_lt_of_le {x y z : Float} (hxy : x < y) (hyz : y ≤ z) : x < z := by
  obtain ⟨p, hp, q, hq, hpq⟩ := lt_iff_place.mp hxy
  obtain ⟨q', hq', r, hr, hqr⟩ := le_iff_place.mp hyz
  obtain rfl := Option.mem_unique hq hq'
  exact lt_iff_place.mpr ⟨p, hp, r, hr, hpq.trans_le hqr⟩

/-- Only what is no number has no place. -/
theorem place_eq_none_iff {x : Float} : place x = none ↔ x.isNaN = true := by
  show _ ↔ x.toModel.unpack.isNaN = true
  rw [place]
  cases x.toModel.unpack with
  | notANumber => exact iff_of_true rfl rfl
  | infinity s | zero s | finite s m e h =>
    cases s <;> simp [placeOf, UnpackedFloat.isNaN]

theorem exists_place {x : Float} (h : x.isNaN = false) : ∃ p, p ∈ place x := by
  rw [← Bool.not_eq_true, ← place_eq_none_iff] at h
  exact Option.ne_none_iff_exists'.mp h

theorem isNaN_of_isFinite {x : Float} (h : x.isFinite = true) : x.isNaN = false := by
  have hfinite : x.toModel.unpack.isFinite = true := h
  show x.toModel.unpack.isNaN = false
  cases hx : x.toModel.unpack with
  | notANumber =>
    rw [hx] at hfinite
    cases hfinite
  | infinity _ | zero _ | finite _ _ _ _ => rfl

theorem double_le_refl {x : Float} (h : x.isFinite = true) : x ≤ x := by
  obtain ⟨p, hp⟩ := exists_place (isNaN_of_isFinite h)
  exact le_iff_place.mpr ⟨p, hp, p, hp, le_refl p⟩

/-- Numbers are comparable. -/
theorem not_le_iff_lt {x y : Float} (hx : x.isNaN = false) (hy : y.isNaN = false) :
    ¬ y ≤ x ↔ x < y := by
  obtain ⟨p, hp⟩ := exists_place hx
  obtain ⟨q, hq⟩ := exists_place hy
  have hle : y ≤ x ↔ q ≤ p := by
    rw [le_iff_place, hp, hq]
    simp
  have hlt : x < y ↔ p < q := by
    rw [lt_iff_place, hp, hq]
    simp
  rw [hle, hlt, not_le]

end TradePlan

import Mathlib.Algebra.Order.Round
import Mathlib.Tactic.Linarith
import Mathlib.Tactic.Positivity

/-!
# Rounding away from zero

Rounding to the nearest integer where a half goes away from zero, for the elements of an ordered
field. It agrees with `round` from zero on and is odd.
-/

namespace NetGymSim.Lib
variable {K : Type*} [Field K] [LinearOrder K] [IsStrictOrderedRing K] [FloorRing K] {x y : K}

def roundAway (x : K) : ℤ := if 0 ≤ x then round x else -round (-x)

theorem roundAway_of_nonneg (h : 0 ≤ x) : roundAway x = ⌊x + 1 / 2⌋ := by
  rw [roundAway, if_pos h, round_eq]

theorem roundAway_of_neg (h : x < 0) : roundAway x = -⌊-x + 1 / 2⌋ := by
  rw [roundAway, if_neg h.not_ge, round_eq]

theorem roundAway_zero : roundAway (0 : K) = 0 := by
  rw [roundAway, if_pos le_rfl, round_zero]

theorem roundAway_nonneg_iff : 0 ≤ roundAway x ↔ -(1 / 2) < x := by
  rcases le_or_gt 0 x with h | h
  · rw [roundAway_of_nonneg h]
    exact iff_of_true (Int.floor_nonneg.mpr (by linarith)) (by linarith)
  · rw [roundAway_of_neg h, neg_nonneg, ← Int.lt_add_one_iff, zero_add, Int.floor_lt, Int.cast_one]
    constructor <;> intro h' <;> linarith

theorem roundAway_nonneg (h : 0 ≤ x) : 0 ≤ roundAway x :=
  roundAway_nonneg_iff.mpr (by linarith)

theorem roundAway_pos_iff : 0 < roundAway x ↔ 1 / 2 ≤ x := by
  rcases le_or_gt 0 x with h | h
  · rw [roundAway_of_nonneg h, Int.floor_pos]
    constructor <;> intro h' <;> linarith
  · rw [roundAway_of_neg h]
    have hnonneg : 0 ≤ ⌊-x + 1 / 2⌋ := Int.floor_nonneg.mpr (by linarith)
    exact iff_of_false (by omega) (by linarith)

theorem roundAway_le {n : ℤ} (hn : 0 ≤ n) (h : x ≤ n) : roundAway x ≤ n := by
  rcases le_or_gt 0 x with h0 | h0
  · rw [roundAway_of_nonneg h0, ← Int.lt_add_one_iff, Int.floor_lt]
    push_cast
    linarith
  · have hneg : ¬ 0 < roundAway x := fun hpos => by
      have := roundAway_pos_iff.mp hpos
      linarith
    omega

end NetGymSim.Lib

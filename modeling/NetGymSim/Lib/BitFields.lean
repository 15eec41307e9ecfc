import Mathlib.Data.Nat.Bitwise
import Mathlib.Tactic.Common
import Mathlib.Data.List.Basic

/-!
# Bit fields as digits

A field of `w` bits at place `k` of a word is written with a shift and a mask and read with
a mask and a shift. Both are a division and a remainder; fields that do not overlap add up.
-/

namespace NetGymSim.Lib

theorem and_shiftRight {m w k : ℕ} (hm : m = (2 ^ w - 1) <<< k) (v : ℕ) :
    (v &&& m) >>> k = v / 2 ^ k % 2 ^ w := by
  rw [hm, Nat.shiftRight_and_distrib, Nat.shiftLeft_shiftRight, Nat.shiftRight_eq_div_pow,
    Nat.and_two_pow_sub_one_eq_mod]

theorem shiftLeft_and {m w k : ℕ} (hm : m = (2 ^ w - 1) <<< k) (v : ℕ) :
    (v <<< k) &&& m = 2 ^ k * (v % 2 ^ w) := by
  rw [hm, ← Nat.shiftLeft_and_distrib, Nat.and_two_pow_sub_one_eq_mod, Nat.shiftLeft_eq,
    Nat.mul_comm]

theorem shiftLeft_and_of_lt {m w k v : ℕ} (hm : m = (2 ^ w - 1) <<< k) (hv : v < 2 ^ w) :
    (v <<< k) &&& m = 2 ^ k * v := by
  rw [shiftLeft_and hm, Nat.mod_eq_of_lt hv]

theorem and_mask {m w : ℕ} (hm : m = 2 ^ w - 1) (v : ℕ) : v &&& m = v % 2 ^ w := by
  rw [hm, Nat.and_two_pow_sub_one_eq_mod]

theorem shiftRight_and {m w : ℕ} (hm : m = 2 ^ w - 1) (v k : ℕ) :
    (v >>> k) &&& m = v / 2 ^ k % 2 ^ w := by
  rw [and_mask hm, Nat.shiftRight_eq_div_pow]

theorem or_below {b k : ℕ} (hb : b < 2 ^ k) (a : ℕ) : 2 ^ k * a ||| b = 2 ^ k * a + b :=
  (Nat.two_pow_add_eq_or_of_lt hb a).symm

theorem or_eq_add {a b k : ℕ} (ha : a % 2 ^ k = 0) (hb : b < 2 ^ k) : a ||| b = a + b := by
  obtain ⟨c, rfl⟩ := Nat.dvd_of_mod_eq_zero ha
  exact or_below hb c

end NetGymSim.Lib

/-!
## Bitmaps and packed fields

A bitmap is a list of bytes; bit `i` is bit `i % 8` of byte `i / 8`. Fields packed into one
word by shifting are sums of multiples of powers of two.
-/

namespace NetGymSim.Lib

def bitAt (bytes : List ℕ) (i : ℕ) : Bool := (bytes.getD (i / 8) 0).testBit (i % 8)

def orBit (bytes : List ℕ) (i : ℕ) : List ℕ := bytes.modify (i / 8) (· ||| (1 <<< (i % 8)))

theorem and_bit_ne_zero (b k : ℕ) : (b &&& (1 <<< k) ≠ 0) ↔ b.testBit k := by
  rw [Nat.one_shiftLeft, Nat.and_two_pow]
  cases b.testBit k <;> simp

theorem length_orBit (bytes : List ℕ) (i : ℕ) : (orBit bytes i).length = bytes.length :=
  List.length_modify ..

theorem bitAt_orBit {bytes : List ℕ} {i j : ℕ} (hi : i / 8 < bytes.length) :
    bitAt (orBit bytes i) j ↔ i = j ∨ bitAt bytes j := by
  unfold bitAt orBit
  by_cases hq : i / 8 = j / 8
  · have hget : (bytes.modify (i / 8) (· ||| (1 <<< (i % 8)))).getD (j / 8) 0 =
        bytes.getD (j / 8) 0 ||| (1 <<< (i % 8)) := by
      rw [← hq]
      simp [List.getD_eq_getElem?_getD, hi]
    rw [hget, Nat.testBit_or, Nat.one_shiftLeft, Nat.testBit_two_pow, Bool.or_eq_true,
      decide_eq_true_iff, or_comm]
    have : i % 8 = j % 8 ↔ i = j := by omega
    rw [this]
  · have hne : i ≠ j := by
      rintro rfl
      exact hq rfl
    have hget : (bytes.modify (i / 8) (· ||| (1 <<< (i % 8)))).getD (j / 8) 0 =
        bytes.getD (j / 8) 0 := by
      simp [List.getD_eq_getElem?_getD, hq]
    rw [hget]
    simp [hne]

theorem bitAt_replicate (n i : ℕ) : bitAt (List.replicate n 0) i = false := by
  unfold bitAt
  have : (List.replicate n 0).getD (i / 8) 0 = 0 := by
    rw [List.getD_eq_getElem?_getD, List.getElem?_replicate]
    split_ifs <;> rfl
  rw [this, Nat.zero_testBit]

theorem shiftLeft_or {b k : ℕ} (a : ℕ) (hb : b < 2 ^ k) : (a <<< k) ||| b = a * 2 ^ k + b := by
  rw [← Nat.shiftLeft_add_eq_or_of_lt hb, Nat.shiftLeft_eq]

end NetGymSim.Lib

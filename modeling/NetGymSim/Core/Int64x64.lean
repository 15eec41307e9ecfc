import Mathlib.Data.Nat.Bitwise
import Mathlib.Tactic.Ring
import Mathlib.Tactic.Linarith

/-!
# `int64x64_t` on 128-bit integers

A Q64.64 number is a 128-bit integer with 64 bits of fraction. The product is put together from
four products of 64-bit halves. `HP_MASK_HI`, meant for the upper half of a 128-bit number, is the
complement of a 64-bit number as a 64-bit number and therefore zero, so that the test for an
overflow never fires.
-/

namespace NetGymSim.Core.Int64x64

def add128 (a b : ℕ) : ℕ := (a + b) % 2 ^ 128

def mul128 (a b : ℕ) : ℕ := a * b % 2 ^ 128

def shl128 (a n : ℕ) : ℕ := (a <<< n) % 2 ^ 128

def hpMaskLo : ℕ := 0xffffffffffffffff

/-- `HP_MASK_HI`, a `uint64_t`: each bit of `HP_MASK_LO` inverted. -/
def hpMaskHi : ℕ := 2 ^ 64 - 1 - hpMaskLo

def low (a : ℕ) : ℕ := a &&& hpMaskLo

def high (a : ℕ) : ℕ := (a >>> 64) &&& hpMaskLo

def loPart (a b : ℕ) : ℕ := mul128 (low a) (low b)

def midPart (a b : ℕ) : ℕ := add128 (mul128 (low a) (high b)) (mul128 (high a) (low b))

def hiPart (a b : ℕ) : ℕ := mul128 (high a) (high b)

def fraction (a b : ℕ) : ℕ := add128 (loPart a b >>> 64) (midPart a b &&& hpMaskLo)

def integer (a b : ℕ) : ℕ := add128 (midPart a b >>> 64) (hiPart a b &&& hpMaskLo)

/-- `NS_ABORT_MSG_IF` with the overflow message. -/
def aborts (a b : ℕ) : Bool := hiPart a b &&& hpMaskHi ≠ 0

/-- It is missing when the program aborts. -/
def umul (a b : ℕ) : Option ℕ :=
  if aborts a b then none else some (add128 (fraction a b) (shl128 (integer a b) 64))

def sums (a b : ℕ) : List (ℕ × ℕ) :=
  (mul128 (low a) (high b), mul128 (high a) (low b)) ::
    if aborts a b then []
    else [(loPart a b >>> 64, midPart a b &&& hpMaskLo),
      (midPart a b >>> 64, hiPart a b &&& hpMaskLo),
      (fraction a b, shl128 (integer a b) 64)]

theorem low_eq (a : ℕ) : low a = a % 2 ^ 64 := Nat.and_two_pow_sub_one_eq_mod a 64

theorem mask_eq (a : ℕ) : a &&& hpMaskLo = a % 2 ^ 64 := low_eq a

theorem shiftRight_eq (a : ℕ) : a >>> 64 = a / 2 ^ 64 := Nat.shiftRight_eq_div_pow a 64

theorem low_lt (a : ℕ) : low a < 2 ^ 64 := by
  rw [low_eq]
  exact Nat.mod_lt a (by decide)

theorem high_eq {a : ℕ} (ha : a ≤ 2 ^ 127) : high a = a / 2 ^ 64 := by
  have hhalf : a / 2 ^ 64 ≤ 2 ^ 63 := by omega
  rw [high, mask_eq, shiftRight_eq, Nat.mod_eq_of_lt (by omega)]

theorem not_aborts (a b : ℕ) : aborts a b = false := by
  have hzero : hpMaskHi = 0 := by decide
  simp [aborts, hzero]

section Product
variable {a b : ℕ} (ha : a ≤ 2 ^ 127) (hb : b ≤ 2 ^ 127)
include ha hb

theorem halves_lt : low a * high b ≤ (2 ^ 64 - 1) * 2 ^ 63 ∧
    high a * low b ≤ (2 ^ 64 - 1) * 2 ^ 63 ∧ high a * high b ≤ 2 ^ 126 ∧
    low a * low b ≤ (2 ^ 64 - 1) * (2 ^ 64 - 1) := by
  have hla : low a ≤ 2 ^ 64 - 1 := Nat.le_sub_one_of_lt (low_lt a)
  have hlb : low b ≤ 2 ^ 64 - 1 := Nat.le_sub_one_of_lt (low_lt b)
  have hha : high a ≤ 2 ^ 63 := by
    rw [high_eq ha]
    omega
  have hhb : high b ≤ 2 ^ 63 := by
    rw [high_eq hb]
    omega
  have hhh : high a * high b ≤ 2 ^ 63 * 2 ^ 63 := Nat.mul_le_mul hha hhb
  have hhl : low b * high a ≤ (2 ^ 64 - 1) * 2 ^ 63 := Nat.mul_le_mul hlb hha
  rw [Nat.mul_comm] at hhl
  exact ⟨Nat.mul_le_mul hla hhb, hhl, hhh.trans (by decide), Nat.mul_le_mul hla hlb⟩

theorem midPart_eq : midPart a b = low a * high b + high a * low b := by
  obtain ⟨hlh, hhl, _, _⟩ := halves_lt ha hb
  have hmulLow : mul128 (low a) (high b) = low a * high b := Nat.mod_eq_of_lt (by omega)
  have hmulHigh : mul128 (high a) (low b) = high a * low b := Nat.mod_eq_of_lt (by omega)
  rw [midPart, hmulLow, hmulHigh]
  exact Nat.mod_eq_of_lt (by omega)

theorem hiPart_eq : hiPart a b = high a * high b :=
  Nat.mod_eq_of_lt (by have := (halves_lt ha hb).2.2.1; omega)

theorem loPart_eq : loPart a b = low a * low b :=
  Nat.mod_eq_of_lt (by have := (halves_lt ha hb).2.2.2; omega)

theorem product_eq : a * b / 2 ^ 64 =
    hiPart a b * 2 ^ 64 + midPart a b + loPart a b / 2 ^ 64 := by
  have hsplitA : a = high a * 2 ^ 64 + low a := by
    rw [high_eq ha, low_eq, Nat.div_add_mod']
  have hsplitB : b = high b * 2 ^ 64 + low b := by
    rw [high_eq hb, low_eq, Nat.div_add_mod']
  have hproduct : a * b = (hiPart a b * 2 ^ 64 + midPart a b) * 2 ^ 64 + loPart a b := by
    rw [hiPart_eq ha hb, midPart_eq ha hb, loPart_eq ha hb]
    calc a * b = (high a * 2 ^ 64 + low a) * (high b * 2 ^ 64 + low b) := by
          rw [← hsplitA, ← hsplitB]
      _ = _ := by ring
  rw [hproduct, Nat.add_comm, Nat.add_mul_div_right _ _ (by decide : 0 < 2 ^ 64), Nat.add_comm]

theorem fraction_eq : fraction a b = loPart a b / 2 ^ 64 + midPart a b % 2 ^ 64 := by
  have hlo := (halves_lt ha hb).2.2.2
  rw [← loPart_eq ha hb] at hlo
  rw [fraction, add128, mask_eq, shiftRight_eq]
  exact Nat.mod_eq_of_lt (by omega)

theorem integer_eq : integer a b = midPart a b / 2 ^ 64 + hiPart a b % 2 ^ 64 := by
  obtain ⟨hlh, hhl, _, _⟩ := halves_lt ha hb
  have hmid := midPart_eq ha hb
  rw [integer, add128, mask_eq, shiftRight_eq]
  exact Nat.mod_eq_of_lt (by omega)

theorem umul_eq : umul a b = some (a * b / 2 ^ 64 % 2 ^ 128) := by
  rw [umul, not_aborts, if_neg Bool.false_ne_true, product_eq ha hb, shl128, Nat.shiftLeft_eq,
    add128, fraction_eq ha hb, integer_eq ha hb]
  congr 1
  omega

end Product

/-- The product is exact and no addition wraps, or the program aborts since it does not fit. -/
def ProductExact (a b : ℕ) : Prop :=
  (umul a b = some (a * b / 2 ^ 64) ∨ 2 ^ 128 ≤ a * b / 2 ^ 64 ∧ umul a b = none) ∧
    ∀ p ∈ sums a b, p.1 + p.2 < 2 ^ 128

theorem sums_lt {a b : ℕ} (ha : a ≤ 2 ^ 127) (hb : b ≤ 2 ^ 127) (hfits : a * b < 2 ^ 192) :
    ∀ p ∈ sums a b, p.1 + p.2 < 2 ^ 128 := by
  obtain ⟨hlh, hhl, _, hll⟩ := halves_lt ha hb
  have hmid := midPart_eq ha hb
  have hlo := loPart_eq ha hb
  have hproduct := product_eq ha hb
  have hquot : a * b / 2 ^ 64 < 2 ^ 128 := by omega
  have hmulLow : mul128 (low a) (high b) = low a * high b := Nat.mod_eq_of_lt (by omega)
  have hmulHigh : mul128 (high a) (low b) = high a * low b := Nat.mod_eq_of_lt (by omega)
  intro p hp
  simp only [sums, not_aborts, if_neg Bool.false_ne_true, List.mem_cons, List.not_mem_nil,
    or_false] at hp
  obtain rfl | rfl | rfl | rfl := hp
  · dsimp only
    omega
  · simp only [mask_eq, shiftRight_eq]
    omega
  · simp only [mask_eq, shiftRight_eq]
    omega
  · simp only [shl128, Nat.shiftLeft_eq, fraction_eq ha hb, integer_eq ha hb]
    omega

theorem product_exact_iff {a b : ℕ} (ha : a ≤ 2 ^ 127) (hb : b ≤ 2 ^ 127) :
    ProductExact a b ↔ a * b < 2 ^ 192 := by
  constructor
  · intro hexact
    have hvalue := umul_eq ha hb
    obtain ⟨hright | ⟨_, hnone⟩, _⟩ := hexact
    · rw [hright, Option.some_inj] at hvalue
      have hlt : a * b / 2 ^ 64 % 2 ^ 128 < 2 ^ 128 := Nat.mod_lt _ (by decide)
      omega
    · rw [hnone] at hvalue
      cases hvalue
  · intro hfits
    have hquot : a * b / 2 ^ 64 < 2 ^ 128 := by omega
    refine ⟨.inl ?_, sums_lt ha hb hfits⟩
    rw [umul_eq ha hb, Nat.mod_eq_of_lt hquot]

/-- Three halves squared, and the largest operands. -/
theorem product_exact_three_halves :
    (ProductExact (3 * 2 ^ 63) (3 * 2 ^ 63) ↔ 3 * 2 ^ 63 * (3 * 2 ^ 63) < 2 ^ 192) ∧
      (ProductExact (2 ^ 127) (2 ^ 127) ↔ 2 ^ 127 * 2 ^ 127 < 2 ^ 192) :=
  ⟨product_exact_iff (by decide) (by decide), product_exact_iff (by decide) (by decide)⟩

/-- The square of 2^32 comes out as zero. -/
theorem product_lost :
    ¬ ∀ a b, a ≤ 2 ^ 127 → b ≤ 2 ^ 127 → ProductExact a b := by
  intro hall
  obtain ⟨hright | ⟨_, hnone⟩, _⟩ := hall (2 ^ 96) (2 ^ 96) (by decide) (by decide)
  · revert hright
    decide
  · revert hnone
    decide

end NetGymSim.Core.Int64x64

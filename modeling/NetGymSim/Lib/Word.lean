import Mathlib.Data.Int.Basic
import Mathlib.Tactic.Common
import Mathlib.Algebra.Order.Ring.Nat

/-!
# Machine words

Sums and differences of unsigned 32-bit counters. A counter that stays within its
bounds follows the plain operation, which is the only fact the proofs about counters use.
A `Counter` remembers whether a subtraction ever went below zero.
-/

namespace NetGymSim.Lib

/-- For the literals of an octet. -/
instance instNeZeroOctet : NeZero (256 : ℕ) := ⟨by decide⟩

def add32 (a b : ℕ) : ℕ := (a + b) % 4294967296

def sub32 (a b : ℕ) : ℕ := (a + (4294967296 - b % 4294967296)) % 4294967296

def sub16 (a b : ℕ) : ℕ := (a + (65536 - b % 65536)) % 65536

/-- The value of a signed 32-bit word that holds the residue of `x`. -/
def int32 (x : ℤ) : ℤ := (x + 2147483648) % 4294967296 - 2147483648

theorem add32_of_lt {a b : ℕ} (h : a + b < 4294967296) : add32 a b = a + b := by
  simp only [add32]
  omega

theorem sub32_of_le {a b : ℕ} (ha : a < 4294967296) (h : b ≤ a) : sub32 a b = a - b := by
  simp only [sub32]
  omega

theorem sub32_of_lt {a b : ℕ} (hb : b < 4294967296) (h : a < b) :
    sub32 a b = 4294967296 - (b - a) := by
  simp only [sub32]
  omega

theorem sub16_of_le {a b : ℕ} (ha : a < 65536) (h : b ≤ a) : sub16 a b = a - b := by
  simp only [sub16]
  omega

theorem sub16_of_lt {a b : ℕ} (hb : b < 65536) (h : a < b) : sub16 a b = 65536 - (b - a) := by
  simp only [sub16]
  omega

theorem add32_lt (a b : ℕ) : add32 a b < 4294967296 := by
  simp only [add32]
  omega

/-- An unsigned counter, with a note of any underflow in its past. -/
structure Counter where
  value : ℕ
  underflow : Bool
deriving DecidableEq, Repr

namespace Counter
variable {a b : ℕ}

def exactly (n : ℕ) : Counter := ⟨n, false⟩

def add (c : Counter) (n : ℕ) : Counter := { c with value := add32 c.value n }

def sub (c : Counter) (n : ℕ) : Counter :=
  ⟨sub32 c.value n, c.underflow || decide (c.value < n)⟩

def set (c : Counter) (n : ℕ) : Counter := { c with value := n }

@[simp] theorem exactly_value : (exactly a).value = a := rfl

@[simp] theorem exactly_set : (exactly a).set b = exactly b := rfl

theorem exactly_add (h : a + b < 4294967296) : (exactly a).add b = exactly (a + b) := by
  simp [exactly, add, add32_of_lt h]

theorem exactly_sub (ha : a < 4294967296) (h : b ≤ a) : (exactly a).sub b = exactly (a - b) := by
  simp [exactly, sub, sub32_of_le ha h, Nat.not_lt.mpr h]

end Counter
end NetGymSim.Lib

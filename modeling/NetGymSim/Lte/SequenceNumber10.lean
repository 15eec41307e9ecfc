import NetGymSim.Lib.Circular

/-!
# `SequenceNumber10`

A sequence number of ten bits that is compared relative to a modulus base of its own. The
comparisons assert that both numbers have the same base; then they compare how far the
numbers lie after it. The difference of a number and its base is taken as an integer, its
remainder is negative when the number lies below the base, and becomes an unsigned number of
16 bits.
-/

namespace NetGymSim.Lte
open NetGymSim.Lib

structure SequenceNumber10 where
  value : ℕ
  modulusBase : ℕ
  value_lt : value < 1024
  base_lt : modulusBase < 1024
  deriving DecidableEq

namespace SequenceNumber10

def ofValue (value : ℕ) : SequenceNumber10 :=
  ⟨value % 1024, 0, Nat.mod_lt _ (by decide), by decide⟩

def assign (s : SequenceNumber10) (value : ℕ) : SequenceNumber10 :=
  ⟨value % 1024, s.modulusBase, Nat.mod_lt _ (by decide), s.base_lt⟩

def setModulusBase (s base : SequenceNumber10) : SequenceNumber10 :=
  ⟨s.value, base.value, s.value_lt, base.value_lt⟩

def succ (s : SequenceNumber10) : SequenceNumber10 := s.assign (s.value + 1)

def add (s : SequenceNumber10) (delta : ℕ) : SequenceNumber10 := s.assign (s.value + delta)

/-- The difference is an integer; 1024 divides 65536, so its residue is kept. -/
def sub (s : SequenceNumber10) (delta : ℕ) : SequenceNumber10 :=
  s.assign (s.value + (1024 - delta % 1024))

def offset (s : SequenceNumber10) : ℕ :=
  (((s.value : ℤ) - s.modulusBase).tmod 1024 % 65536).toNat

def gt (s other : SequenceNumber10) : Bool := s.offset > other.offset
def le (s other : SequenceNumber10) : Bool := ¬ s.gt other
def ge (s other : SequenceNumber10) : Bool := s.gt other ∨ s.value = other.value
def lt (s other : SequenceNumber10) : Bool := ¬ s.gt other ∧ s.value ≠ other.value

/-! ### Comparisons as distances from the base -/

def dist (s : SequenceNumber10) : ℕ := forward 1024 s.value s.modulusBase

theorem dist_lt (s : SequenceNumber10) : s.dist < 1024 := forward_lt (by decide) _ _

theorem offset_eq (s : SequenceNumber10) :
    s.offset = if s.modulusBase ≤ s.value then s.dist else 64512 + s.dist := by
  have h1 := s.value_lt
  have h2 := s.base_lt
  unfold offset dist forward
  split_ifs with h
  · rw [Int.tmod_eq_of_lt (by omega) (by omega)]
    omega
  · have hneg : ((s.value : ℤ) - s.modulusBase).tmod 1024 = s.value - s.modulusBase := by
      rw [show (s.value : ℤ) - s.modulusBase = -(s.modulusBase - s.value) by omega, Int.neg_tmod,
        Int.tmod_eq_of_lt (by omega) (by omega)]
    rw [hneg]
    omega

section Compare
variable {s t : SequenceNumber10}

theorem offset_lt_iff (hb : s.modulusBase = t.modulusBase) :
    s.offset < t.offset ↔ s.dist < t.dist := by
  have h1 := s.value_lt
  have h2 := t.value_lt
  have h3 := t.base_lt
  rw [offset_eq, offset_eq, hb]
  unfold dist forward
  rw [hb]
  split_ifs <;> omega

theorem dist_eq_iff (hb : s.modulusBase = t.modulusBase) : s.dist = t.dist ↔ s.value = t.value := by
  have h1 := s.value_lt
  have h2 := t.value_lt
  have h3 := t.base_lt
  unfold dist forward
  rw [hb]
  omega

theorem gt_iff (hb : s.modulusBase = t.modulusBase) : s.gt t ↔ t.dist < s.dist := by
  unfold gt
  rw [decide_eq_true_iff]
  exact offset_lt_iff hb.symm

theorem le_iff (hb : s.modulusBase = t.modulusBase) : s.le t ↔ s.dist ≤ t.dist := by
  unfold le
  rw [decide_eq_true_iff, gt_iff hb]
  omega

theorem ge_iff (hb : s.modulusBase = t.modulusBase) : s.ge t ↔ t.dist ≤ s.dist := by
  unfold ge
  rw [decide_eq_true_iff, gt_iff hb, ← dist_eq_iff hb]
  omega

theorem lt_iff (hb : s.modulusBase = t.modulusBase) : s.lt t ↔ s.dist < t.dist := by
  unfold lt
  rw [decide_eq_true_iff, gt_iff hb, ne_eq, ← dist_eq_iff hb]
  omega

end Compare

/-! ### Distances of what the operators return -/

section Dist
variable {s t : SequenceNumber10}

@[simp] theorem succ_modulusBase : s.succ.modulusBase = s.modulusBase := rfl
@[simp] theorem add_modulusBase (d : ℕ) : (s.add d).modulusBase = s.modulusBase := rfl
@[simp] theorem sub_modulusBase (d : ℕ) : (s.sub d).modulusBase = s.modulusBase := rfl
@[simp] theorem assign_modulusBase (v : ℕ) : (s.assign v).modulusBase = s.modulusBase := rfl
theorem add_value (d : ℕ) : (s.add d).value = (s.value + d) % 1024 := rfl
@[simp] theorem sub_value (d : ℕ) : (s.sub d).value = (s.value + (1024 - d % 1024)) % 1024 := rfl
@[simp] theorem assign_value (v : ℕ) : (s.assign v).value = v % 1024 := rfl
@[simp] theorem setModulusBase_modulusBase : (s.setModulusBase t).modulusBase = t.value := rfl
@[simp] theorem setModulusBase_value : (s.setModulusBase t).value = s.value := rfl

theorem setModulusBase_eq_self (h : s.modulusBase = t.value) : s.setModulusBase t = s := by
  cases s
  subst h
  rfl

theorem value_eq : s.value = (s.modulusBase + s.dist) % 1024 := by
  have h1 := s.value_lt
  have h2 := s.base_lt
  unfold dist forward
  omega

theorem dist_eq_zero : s.dist = 0 ↔ s.value = s.modulusBase := by
  have h1 := s.value_lt
  have h2 := s.base_lt
  unfold dist forward
  omega

theorem dist_add {d : ℕ} (h : s.dist + d < 1024) : (s.add d).dist = s.dist + d := by
  have h1 := s.value_lt
  have h2 := s.base_lt
  unfold add assign dist forward at *
  dsimp only at *
  omega

theorem dist_succ (h : s.dist < 1023) : s.succ.dist = s.dist + 1 :=
  dist_add (d := 1) (by omega)

@[simp] theorem dist_setModulusBase_self : (s.setModulusBase s).dist = 0 := dist_eq_zero.mpr rfl

theorem dist_setModulusBase (hb : s.modulusBase = t.modulusBase) :
    (s.setModulusBase t).dist =
      if t.dist ≤ s.dist then s.dist - t.dist else s.dist + 1024 - t.dist := by
  have h1 := s.value_lt
  have h2 := t.value_lt
  have h3 := t.base_lt
  unfold setModulusBase dist forward at *
  dsimp only at *
  rw [hb]
  split_ifs <;> omega

end Dist

end SequenceNumber10
end NetGymSim.Lte

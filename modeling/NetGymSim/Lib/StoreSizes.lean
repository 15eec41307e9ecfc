import Mathlib.Algebra.BigOperators.Group.Finset.Basic
import Mathlib.Algebra.Order.BigOperators.Group.Finset
import Mathlib.Logic.Function.Basic

/-!
# The size of a store

A store has at most one item in each of its cells. Its size is the sum of the sizes of its
items; replacing what one cell holds exchanges one term of the sum.
-/

namespace NetGymSim.Lib
variable {α : Type*} (size : α → ℕ)

def cellSize : Option α → ℕ
  | none => 0
  | some a => size a

@[simp] theorem cellSize_none : cellSize size none = 0 := rfl
@[simp] theorem cellSize_some (a : α) : cellSize size (some a) = size a := rfl

def storeSize (cells : ℕ) (store : ℕ → Option α) : ℕ :=
  ∑ i ∈ Finset.range cells, cellSize size (store i)

variable {size} {cells k : ℕ} {store : ℕ → Option α}

theorem storeSize_empty : storeSize size cells (fun _ => none) = 0 :=
  Finset.sum_eq_zero fun _ _ => rfl

theorem storeSize_update (hk : k < cells) (v : Option α) :
    storeSize size cells (Function.update store k v) + cellSize size (store k) =
      storeSize size cells store + cellSize size v := by
  have hmem : k ∈ Finset.range cells := Finset.mem_range.mpr hk
  have hrest : ∑ i ∈ (Finset.range cells).erase k, cellSize size (Function.update store k v i) =
      ∑ i ∈ (Finset.range cells).erase k, cellSize size (store i) := by
    apply Finset.sum_congr rfl
    intro i hi
    rw [Function.update_of_ne (Finset.ne_of_mem_erase hi)]
  unfold storeSize
  rw [← Finset.add_sum_erase _ _ hmem, hrest, Function.update_self,
    ← Finset.add_sum_erase _ (fun i => cellSize size (store i)) hmem]
  omega

theorem storeSize_put (hk : k < cells) (hempty : store k = none) (a : α) :
    storeSize size cells (Function.update store k (some a)) =
      storeSize size cells store + size a := by
  have h := @storeSize_update _ size _ _ store hk (some a)
  rw [hempty] at h
  simpa using h

theorem exists_of_storeSize_pos (h : 0 < storeSize size cells store) :
    ∃ i a, i < cells ∧ store i = some a := by
  obtain ⟨i, hi, hpos⟩ := Finset.sum_pos_iff.mp h
  cases hc : store i with
  | none =>
    rw [hc] at hpos
    exact absurd hpos (Nat.lt_irrefl 0)
  | some a => exact ⟨i, a, Finset.mem_range.mp hi, hc⟩

end NetGymSim.Lib

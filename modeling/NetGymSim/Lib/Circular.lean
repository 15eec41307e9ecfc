import Mathlib.Data.Nat.ModEq
import Mathlib.Data.List.TakeWhile
import Mathlib.Tactic.Common

/-!
# Positions on a circle

A counter is known by its residue. The forward distance from one residue to another is
the difference of the counters while that is below the size of the circle. A list that
is sorted by a counter is cut by a bound into the elements below it and the others.
-/

namespace NetGymSim.Lib

def forward (size n start : ℕ) : ℕ := (n + size - start) % size

theorem forward_lt {size : ℕ} (h : 0 < size) (n start : ℕ) : forward size n start < size :=
  Nat.mod_lt _ h

theorem forward_residue {size d : ℕ} (a : ℕ) (hd : d < size) :
    forward size ((a + d) % size) (a % size) = d := by
  have ha := Nat.mod_lt a (by omega : 0 < size)
  have hsum : (a + d) % size = (a % size + d) % size := by rw [Nat.mod_add_mod]
  unfold forward
  rw [hsum]
  generalize a % size = r at ha
  by_cases hlt : r + d < size
  · rw [Nat.mod_eq_of_lt hlt, show r + d + size - r = d + size by omega, Nat.add_mod_right,
      Nat.mod_eq_of_lt hd]
  · have hmod : (r + d) % size = r + d - size := by
      rw [Nat.mod_eq_sub_mod (by omega), Nat.mod_eq_of_lt (by omega)]
    rw [hmod, show r + d - size + size - r = d by omega, Nat.mod_eq_of_lt hd]

theorem residue_forward {size n : ℕ} (a : ℕ) (hn : n < size) :
    (a + forward size n (a % size)) % size = n := by
  have ha := Nat.mod_lt a (by omega : 0 < size)
  unfold forward
  rw [Nat.add_mod_mod, ← Nat.mod_add_mod, show a % size + (n + size - a % size) = n + size by omega,
    Nat.add_mod_right, Nat.mod_eq_of_lt hn]

section Cut
variable {α : Type*} {f : α → ℕ} {l : List α}

theorem cut_congr {p q : α → Bool} (h : ∀ x ∈ l, p x = q x) :
    l.takeWhile p = l.takeWhile q ∧ l.dropWhile p = l.dropWhile q := by
  induction l with
  | nil => exact ⟨rfl, rfl⟩
  | cons x l ih =>
    obtain ⟨h1, h2⟩ := ih fun y hy => h y (List.mem_cons_of_mem x hy)
    have hx := h x List.mem_cons_self
    simp only [List.takeWhile_cons, List.dropWhile_cons, hx, h1, h2, and_self]

theorem mem_takeWhile_lt {b : ℕ} {x : α} (hx : x ∈ l.takeWhile fun y => f y < b) : f x < b :=
  of_decide_eq_true (List.mem_takeWhile_imp (p := fun y => decide (f y < b)) hx)

theorem le_of_mem_dropWhile {b : ℕ} (hl : l.Pairwise fun x y => f x < f y) {x : α}
    (hx : x ∈ l.dropWhile fun y => f y < b) : b ≤ f x := by
  induction l with
  | nil => simp at hx
  | cons y l ih =>
    obtain ⟨hy, hl⟩ := List.pairwise_cons.mp hl
    by_cases h : f y < b
    · rw [List.dropWhile_cons_of_pos (by simpa using h)] at hx
      exact ih hl hx
    · rw [List.dropWhile_cons_of_neg (by simpa using h)] at hx
      rcases List.mem_cons.mp hx with rfl | hx
      · omega
      · have := hy x hx
        omega

end Cut
end NetGymSim.Lib

import Mathlib.Order.Basic
import Mathlib.Order.Defs.LinearOrder
import Mathlib.Data.List.Basic
import Mathlib.Tactic.Common
import Mathlib.Algebra.Order.Ring.Nat

/-!
# Heap order in an array that starts at index one

A heap of size `n` is a key function on `1, …, n`; the parent of `i` is `i / 2`.
`UpTo j` is the order up to one entry `j` that may be too small, `DownFrom j` the
order up to one entry that may be too large. Exchanging `j` with its parent, or with
its smaller child, moves the exception one level and keeps the rest.
-/

namespace NetGymSim.Lib
variable {κ : Type*} [LinearOrder κ] {k : ℕ → κ} {n i j c : ℕ}

def HeapOrdered (k : ℕ → κ) (n : ℕ) : Prop := ∀ i, 2 ≤ i → i ≤ n → k (i / 2) ≤ k i

structure UpTo (k : ℕ → κ) (n j : ℕ) : Prop where
  others : ∀ i, 2 ≤ i → i ≤ n → i ≠ j → k (i / 2) ≤ k i
  below : 2 ≤ j → ∀ i, i ≤ n → i / 2 = j → k (j / 2) ≤ k i

structure DownFrom (k : ℕ → κ) (n j : ℕ) : Prop where
  others : ∀ i, 2 ≤ i → i ≤ n → i / 2 ≠ j → k (i / 2) ≤ k i
  below : 2 ≤ j → ∀ i, i ≤ n → i / 2 = j → k (j / 2) ≤ k i

def exchange (k : ℕ → κ) (a b : ℕ) : ℕ → κ :=
  fun i => if i = a then k b else if i = b then k a else k i

theorem HeapOrdered.root_le (h : HeapOrdered k n) (h1 : 1 ≤ i) (hn : i ≤ n) : k 1 ≤ k i := by
  induction i using Nat.strongRecOn with
  | _ i ih =>
    by_cases hi : i = 1
    · rw [hi]
    · exact (ih (i / 2) (by omega) (by omega) (by omega)).trans (h i (by omega) hn)

theorem HeapOrdered.push {k' : ℕ → κ} (h : HeapOrdered k n) (hk : ∀ i, i ≤ n → k' i = k i) :
    UpTo k' (n + 1) (n + 1) where
  others i h2 hn hne := by
    rw [hk (i / 2) (by omega), hk i (by omega)]
    exact h i h2 (by omega)
  below h2 i hn hi := by omega

theorem UpTo.done (h : UpTo k n j) (hj : j ≤ 1 ∨ k (j / 2) ≤ k j) : HeapOrdered k n := by
  intro i h2 hn
  by_cases hi : i = j
  · subst hi
    exact hj.resolve_left (by omega)
  · exact h.others i h2 hn hi

theorem UpTo.step (h : UpTo k n j) (h2 : 2 ≤ j) (hn : j ≤ n) (hlt : k j < k (j / 2)) :
    UpTo (exchange k j (j / 2)) n (j / 2) := by
  constructor
  · intro i hi2 hin hne
    unfold exchange
    by_cases hij : i = j
    · subst hij
      rw [if_neg (by omega), if_pos rfl, if_pos rfl]
      exact hlt.le
    · rw [if_neg hij, if_neg hne]
      by_cases hpj : i / 2 = j
      · rw [if_pos hpj]
        exact h.below h2 i hin hpj
      · rw [if_neg hpj]
        have hio := h.others i hi2 hin hij
        by_cases hpp : i / 2 = j / 2
        · rw [if_pos hpp]
          rw [hpp] at hio
          exact hlt.le.trans hio
        · rw [if_neg hpp]
          exact hio
  · intro hp2 i hin hip
    have hup := h.others (j / 2) hp2 (by omega) (by omega)
    unfold exchange
    rw [if_neg (by omega), if_neg (by omega)]
    by_cases hij : i = j
    · rw [if_pos hij]
      exact hup
    · rw [if_neg hij, if_neg (by omega)]
      have := h.others i (by omega) hin hij
      rw [hip] at this
      exact hup.trans this

theorem DownFrom.done (h : DownFrom k n j) (hj : ∀ i, 2 ≤ i → i ≤ n → i / 2 = j → k j ≤ k i) :
    HeapOrdered k n := by
  intro i h2 hn
  by_cases hi : i / 2 = j
  · rw [hi]
    exact hj i h2 hn hi
  · exact h.others i h2 hn hi

theorem DownFrom.step (h : DownFrom k n j) (h1 : 1 ≤ j) (hc : c / 2 = j) (hn : c ≤ n)
    (hle : k c ≤ k j) (hmin : ∀ i, i ≤ n → i / 2 = j → k c ≤ k i) :
    DownFrom (exchange k j c) n c := by
  constructor
  · intro i hi2 hin hne
    unfold exchange
    by_cases hij : i = j
    · subst hij
      rw [if_neg (by omega), if_neg (by omega), if_pos rfl]
      exact h.below (by omega) c hn hc
    · rw [if_neg hij]
      by_cases hic : i = c
      · subst hic
        rw [if_pos hc, if_pos rfl]
        exact hle
      · rw [if_neg hic]
        by_cases hpj : i / 2 = j
        · rw [if_pos hpj]
          exact hmin i hin hpj
        · rw [if_neg hpj, if_neg hne]
          exact h.others i hi2 hin hpj
  · intro hc2 i hin hic
    unfold exchange
    rw [if_pos hc, if_neg (by omega), if_neg (by omega)]
    have := h.others i (by omega) hin (by omega)
    rwa [hic] at this

theorem HeapOrdered.replace {k' : ℕ → κ} (h : HeapOrdered k (n + 1))
    (hk : ∀ i, i ≤ n → i ≠ j → k' i = k i) (hj : j ≤ n → k' j = k (n + 1))
    (hup : 2 ≤ j → k (j / 2) ≤ k (n + 1)) : DownFrom k' n j := by
  constructor
  · intro i hi2 hin hne
    rw [hk (i / 2) (by omega) hne]
    by_cases hij : i = j
    · subst hij
      rw [hj hin]
      exact hup hi2
    · rw [hk i hin hij]
      exact h i hi2 (by omega)
  · intro hj2 i hin hij
    rw [hk (j / 2) (by omega) (by omega), hk i hin (by omega)]
    have h1 := h i (by omega) (by omega)
    rw [hij] at h1
    exact (h j hj2 (by omega)).trans h1

end NetGymSim.Lib

import Mathlib.Data.Int.Basic
import Mathlib.Tactic.Linarith
import Mathlib.Tactic.Ring
import Mathlib.Data.Int.Range
import Mathlib.Data.List.Nodup

/-!
# Serial numbers

Numbers of a cyclic space of `2 * half` values are compared by a difference
that is brought back into `[-half, half]`. The difference is congruent to the
plain one, and it is the true difference of two unwrapped counters that lie
less than `half` apart.
-/

namespace NetGymSim.Lib

def wrapDiff (half x1 x2 : ℤ) : ℤ :=
  let diff := x1 - x2
  if diff > half then diff - 2 * half
  else if diff < -half then diff + 2 * half
  else diff

theorem wrapDiff_cases (half x1 x2 : ℤ) :
    (half < x1 - x2 ∧ wrapDiff half x1 x2 = x1 - x2 - 2 * half) ∨
      (x1 - x2 < -half ∧ wrapDiff half x1 x2 = x1 - x2 + 2 * half) ∨
      (-half ≤ x1 - x2 ∧ x1 - x2 ≤ half ∧ wrapDiff half x1 x2 = x1 - x2) := by
  unfold wrapDiff
  dsimp only
  split_ifs with h1 h2
  · exact .inl ⟨h1, rfl⟩
  · exact .inr (.inl ⟨h2, rfl⟩)
  · exact .inr (.inr ⟨by omega, by omega, rfl⟩)

theorem wrapDiff_self (half x : ℤ) (h : 0 ≤ half) : wrapDiff half x x = 0 := by
  rcases wrapDiff_cases half x x with h' | h' | h' <;> omega

theorem wrapDiff_swap (half x y : ℤ) (h : 0 ≤ half) :
    wrapDiff half y x = -wrapDiff half x y := by
  rcases wrapDiff_cases half x y with h1 | h1 | h1 <;>
    rcases wrapDiff_cases half y x with h2 | h2 | h2 <;> omega

theorem wrapDiff_eq_zero {half x y : ℤ} (hx : 0 ≤ x ∧ x < 2 * half) (hy : 0 ≤ y ∧ y < 2 * half)
    (h : wrapDiff half x y = 0) : x = y := by
  rcases wrapDiff_cases half x y with h' | h' | h' <;> omega

theorem wrapDiff_residues {half i j : ℤ} (h : 0 < half) (hlo : -half < i - j) (hhi : i - j < half) :
    wrapDiff half (i % (2 * half)) (j % (2 * half)) = i - j := by
  have hi := Int.emod_add_mul_ediv i (2 * half)
  have hj := Int.emod_add_mul_ediv j (2 * half)
  have hi0 := Int.emod_nonneg i (show (2 * half) ≠ 0 by omega)
  have hj0 := Int.emod_nonneg j (show (2 * half) ≠ 0 by omega)
  have hi1 := Int.emod_lt_of_pos i (show 0 < 2 * half by omega)
  have hj1 := Int.emod_lt_of_pos j (show 0 < 2 * half by omega)
  set a := i % (2 * half)
  set b := j % (2 * half)
  set p := i / (2 * half)
  set q := j / (2 * half)
  -- the quotients differ by at most one turn of the space
  have hpq : a - b = i - j - 2 * half * (p - q) := by rw [← hi, ← hj]; ring
  have hk : p - q = 0 ∨ p - q = 1 ∨ p - q = -1 := by
    have h1 : p - q < 2 := by by_contra hc; nlinarith
    have h2 : -2 < p - q := by by_contra hc; nlinarith
    omega
  rcases wrapDiff_cases half a b with h' | h' | h' <;> rcases hk with hk | hk | hk <;>
    rw [hk] at hpq <;> omega

end NetGymSim.Lib

/-!
## Numbers that did not arrive

The packets of a stream are numbered without gaps. What is lost between two numbers are those of
the interval that are not among the ones received, and a receiver counts them by its size.
-/

namespace NetGymSim.Lib

def lost (lo hi : ℤ) (received : List ℤ) : ℕ := (Int.range lo (hi + 1)).countP (· ∉ received)

theorem nodup_range (lo hi : ℤ) : (Int.range lo hi).Nodup :=
  List.nodup_range.map fun _ _ h => Int.ofNat_inj.mp (add_left_cancel h)

theorem length_range (lo hi : ℤ) : (Int.range lo hi).length = (hi - lo).toNat := by
  rw [Int.range, List.length_map, List.length_range]

theorem lost_add_length {lo hi : ℤ} {received : List ℤ} (hn : received.Nodup)
    (hmem : ∀ p ∈ received, lo ≤ p ∧ p ≤ hi) :
    lost lo hi received + received.length = (hi + 1 - lo).toNat := by
  have hperm : ((Int.range lo (hi + 1)).filter (· ∈ received)).Perm received := by
    apply (List.perm_ext_iff_of_nodup ((nodup_range lo (hi + 1)).filter _) hn).mpr
    intro p
    rw [List.mem_filter, Int.mem_range_iff, decide_eq_true_iff, Int.lt_add_one_iff]
    exact ⟨And.right, fun hp => ⟨hmem p hp, hp⟩⟩
  have hcount : (Int.range lo (hi + 1)).countP (· ∈ received) = received.length := by
    rw [List.countP_eq_length_filter, hperm.length_eq]
  have hsplit := List.length_eq_countP_add_countP (fun p => decide (p ∈ received))
    (l := Int.range lo (hi + 1))
  have hnot : (Int.range lo (hi + 1)).countP (fun p => decide ¬ decide (p ∈ received) = true) =
      lost lo hi received := by
    apply List.countP_congr
    intro p _
    simp
  rw [hcount, hnot, length_range] at hsplit
  rw [hsplit, Nat.add_comm]

def residue (half p : ℤ) : ℕ := (p % (2 * half)).toNat

theorem residue_cast {half : ℤ} (h : 0 < half) (p : ℤ) : (residue half p : ℤ) = p % (2 * half) :=
  Int.toNat_of_nonneg (Int.emod_nonneg p (by omega))

theorem wrapDiff_residue {half p q : ℤ} (h : 0 < half) (hlo : -half < p - q) (hhi : p - q < half) :
    wrapDiff half (residue half p) (residue half q) = p - q := by
  rw [residue_cast h, residue_cast h, wrapDiff_residues h hlo hhi]

theorem wrapDiff_residue_far {half p q : ℤ} (h : 0 < half) (hlo : half < p - q)
    (hhi : p - q ≤ 2 * half) :
    wrapDiff half (residue half p) (residue half q) = p - q - 2 * half := by
  have hshift : residue half p = residue half (p - 2 * half) := by
    rw [residue, residue, Int.sub_emod_right]
  rw [hshift, wrapDiff_residue h (by omega) (by omega)]
  ring

theorem wrapDiff_residue_half {half p q : ℤ} (h : 0 < half) (hpq : p - q = half) :
    wrapDiff half (residue half p) (residue half q) = half ∨
      wrapDiff half (residue half p) (residue half q) = -half := by
  have hpos := Int.emod_nonneg q (show 2 * half ≠ 0 by omega)
  have hlt := Int.emod_lt_of_pos q (show 0 < 2 * half by omega)
  obtain rfl : p = q + half := by omega
  have hmod : (q + half) % (2 * half) = q % (2 * half) + half ∨
      (q + half) % (2 * half) = q % (2 * half) - half := by
    rcases lt_or_ge (q % (2 * half)) half with hsmall | hlarge
    · left
      rw [← Int.emod_add_emod, Int.emod_eq_of_lt (by omega) (by omega)]
    · right
      rw [← Int.emod_add_emod, ← Int.sub_emod_right, Int.emod_eq_of_lt (by omega) (by omega)]
      ring
  rw [residue_cast h, residue_cast h]
  rcases wrapDiff_cases half ((q + half) % (2 * half)) (q % (2 * half)) with h' | h' | h' <;>
    omega

end NetGymSim.Lib

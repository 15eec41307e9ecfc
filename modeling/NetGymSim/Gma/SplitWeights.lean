import NetGymSim.Gma.BurstSums
import NetGymSim.Lib.Rounding
import Mathlib.Algebra.BigOperators.Ring.List
import Mathlib.Algebra.Order.BigOperators.Group.List
import Mathlib.Data.Rat.Floor
import Mathlib.Tactic.FieldSimp

/-!
# The weights of a learner

`ReceiveDlSplitWeightAction` rounds the weight of each link to its part of the largest burst and
corrects the sum at the largest entry. Weights are rationals. A link without weight gets nothing,
unless every weight rounds to zero: then the first link is the largest entry and gets the whole
burst, whatever its weight.
-/

namespace NetGymSim.Gma
open NetGymSim.Lib

namespace GmaRxControl

/-- `std::round(weight * GetMaxSplittingBurst() / sumWeight)`. -/
def weightShare (sumWeight weight : ℚ) : ℤ := roundAway (weight * maxSplittingBurst / sumWeight)

def weightShares (weights : List ℚ) : List ℕ :=
  weights.map fun weight => byte (weightShare weights.sum weight)

/-- A sum of zero is a fatal error. -/
def splitWeights (weights : List ℚ) : Option (List ℕ) :=
  if weights.sum = 0 then none else some (fixRounding maxSplittingBurst (weightShares weights))

def ZeroKept (weights : List ℚ) (shares : List ℕ) : Prop :=
  ∀ i : ℕ, weights[i]? = some 0 → shares[i]? = some 0

section Correction
variable {weights : List ℚ} {shares result : List ℕ} {burst ind : ℕ}

theorem ZeroKept.set (h : ZeroKept weights shares) (hind : weights[ind]? ≠ some 0) (x : ℕ) :
    ZeroKept weights (shares.set ind x) := by
  intro i hi
  have hne : ind ≠ i := fun heq => hind (heq ▸ hi)
  rw [List.getElem?_set_ne hne]
  exact h i hi

theorem ZeroKept.weight_ne (h : ZeroKept weights shares) {x : ℕ} (hx : shares[ind]? = some x)
    (hpos : 0 < x) : weights[ind]? ≠ some 0 := by
  intro hzero
  rw [h ind hzero] at hx
  obtain rfl := Option.some.inj hx
  exact lt_irrefl _ hpos

theorem ZeroKept.largest_ne (h : ZeroKept weights shares) {x : ℕ} (hx : x ∈ shares)
    (hpos : 0 < x) : weights[maxElement shares]? ≠ some 0 := by
  obtain ⟨y, hy, hmax⟩ := maxElement_spec (List.ne_nil_of_mem hx)
  exact h.weight_ne hy (hpos.trans_le (hmax x hx))

/-- Units are only added where there is a weight, once the largest entry has one. -/
theorem Corrects.zeroKept (h : Corrects burst shares result) (hz : ZeroKept weights shares)
    (hlargest : (shares.sum : ℤ) < burst → weights[maxElement shares]? ≠ some 0) :
    ZeroKept weights result := by
  obtain ⟨raised, left, hraise, hlower, rfl⟩ := h
  have hraised : ZeroKept weights raised.1 ∧
      (raised.2 < burst → weights[maxElement raised.1]? ≠ some 0) := by
    refine LoopEnds.invariant (P := fun b => ZeroKept weights b.1 ∧
      (b.2 < (burst : ℤ) → weights[maxElement b.1]? ≠ some 0)) ?_ ⟨hz, hlargest⟩ hraise
    intro b hb hguard hsafe
    obtain ⟨x, hx, hlt⟩ := hsafe
    have hkept := hb.1.set (hb.2 hguard) ((b.1.getD (maxElement b.1) 0 + 1) % 256)
    refine ⟨hkept, fun _ => hkept.largest_ne (x := x + 1) ?_ (Nat.succ_pos x)⟩
    rw [List.getD_eq_getElem?_getD, hx, Option.getD_some, Nat.mod_eq_of_lt hlt]
    exact List.mem_set (List.getElem?_eq_some_iff.mp hx).1 _
  refine LoopEnds.invariant (P := fun b => ZeroKept weights b.1) ?_ hraised.1 hlower
  intro b hb _ hsafe
  obtain ⟨x, hx, hpos⟩ := hsafe
  exact hb.set (hb.weight_ne hx hpos) _

theorem maxElement_cons_zeros (k n : ℕ) : maxElement (k :: List.replicate n 0) = 0 := by
  have hmax : (k :: List.replicate n 0).max? = some k := by
    rw [List.max?_eq_some_iff]
    refine ⟨List.mem_cons_self, fun x hx => ?_⟩
    rcases List.mem_cons.mp hx with rfl | hx
    · exact le_rfl
    · rw [List.eq_of_mem_replicate hx]
      exact Nat.zero_le k
  rw [maxElement, hmax]
  exact List.idxOf_cons_self

theorem addUnits_zeros {k units n : ℕ} (h : k + units < 256) :
    addUnits units (k :: List.replicate n 0) = (k + units) :: List.replicate n 0 := by
  induction units generalizing k with
  | zero => rfl
  | succ units ih =>
    have hmod : (k + 1) % 256 = k + 1 := Nat.mod_eq_of_lt (by omega)
    simp only [addUnits, maxElement_cons_zeros, List.getD_cons_zero, List.set_cons_zero, hmod]
    rw [ih (by omega), Nat.add_right_comm, Nat.add_assoc]

theorem fixRounding_zeros {n : ℕ} (hburst : burst < 256) :
    fixRounding burst (List.replicate (n + 1) 0) = burst :: List.replicate n 0 := by
  have hadd : addUnits burst (0 :: List.replicate n 0) = (0 + burst) :: List.replicate n 0 :=
    addUnits_zeros (by omega)
  have hsum : (List.replicate (n + 1) 0).sum = 0 := by simp
  have hsum' : (burst :: List.replicate n 0).sum = burst := by simp
  rw [fixRounding, hsum, Nat.sub_zero, List.replicate_succ, hadd, Nat.zero_add, hsum', Nat.sub_self,
    removeUnits]

end Correction

section Weights
variable {weights : List ℚ} {weight : ℚ}

theorem weightShare_bounds (hnonneg : ∀ w ∈ weights, 0 ≤ w) (hsum : 0 < weights.sum)
    (hw : weight ∈ weights) :
    0 ≤ weightShare weights.sum weight ∧ weightShare weights.sum weight ≤ maxSplittingBurst := by
  have hle : weight ≤ weights.sum := List.single_le_sum hnonneg weight hw
  have h0 := hnonneg weight hw
  constructor
  · exact roundAway_nonneg (by positivity)
  · refine roundAway_le (Nat.cast_nonneg _) ?_
    rw [div_le_iff₀ hsum, mul_comm]
    push_cast
    exact mul_le_mul_of_nonneg_left hle (Nat.cast_nonneg _)

theorem weightShare_pos_iff (hsum : 0 < weights.sum) :
    0 < weightShare weights.sum weight ↔ weights.sum ≤ 256 * weight := by
  rw [weightShare, roundAway_pos_iff, le_div_iff₀ hsum, maxSplittingBurst]
  push_cast
  constructor <;> intro h <;> linarith

theorem byte_weightShare (hnonneg : ∀ w ∈ weights, 0 ≤ w) (hsum : 0 < weights.sum)
    (hw : weight ∈ weights) :
    (byte (weightShare weights.sum weight) : ℤ) = weightShare weights.sum weight := by
  obtain ⟨h0, hle⟩ := weightShare_bounds hnonneg hsum hw
  exact byte_of_bounds h0 (hle.trans_lt (by decide))

theorem weightShares_zeroKept (weights : List ℚ) : ZeroKept weights (weightShares weights) := by
  intro i hi
  have hzero : weightShare weights.sum 0 = 0 := by
    rw [weightShare, zero_mul, zero_div, roundAway_zero]
  rw [weightShares, List.getElem?_map, hi, Option.map_some, hzero]
  rfl

theorem weightShares_eq_zero (hnonneg : ∀ w ∈ weights, 0 ≤ w) (hsum : 0 < weights.sum)
    (hsmall : ∀ w ∈ weights, 256 * w < weights.sum) :
    weightShares weights = List.replicate weights.length 0 := by
  rw [List.eq_replicate_iff]
  refine ⟨List.length_map _, fun x hx => ?_⟩
  obtain ⟨w, hw, rfl⟩ := List.mem_map.mp hx
  have hbyte := byte_weightShare hnonneg hsum hw
  have hpos : ¬ 0 < weightShare weights.sum w :=
    (weightShare_pos_iff hsum).not.mpr (hsmall w hw).not_ge
  omega

theorem exists_large_weight (hsum : 0 < weights.sum) (hlen : weights.length ≤ 256) :
    ∃ w ∈ weights, weights.sum ≤ 256 * w := by
  have hne : weights ≠ [] := by
    intro hnil
    rw [hnil, List.sum_nil] at hsum
    exact lt_irrefl _ hsum
  apply List.exists_le_of_sum_le hne (fun _ => weights.sum) (fun w => 256 * w)
  have hcount : (weights.length : ℚ) ≤ 256 := by exact_mod_cast hlen
  rw [List.map_const', List.sum_replicate, nsmul_eq_mul, List.sum_map_mul_left, List.map_id']
  exact mul_le_mul_of_nonneg_right hcount hsum.le

theorem length_pos (hsum : 0 < weights.sum) : ∃ n, weights.length = n + 1 := by
  cases weights with
  | nil => exact absurd hsum (lt_irrefl _)
  | cons w weights => exact ⟨_, rfl⟩

theorem largest_weight_ne (hnonneg : ∀ w ∈ weights, 0 ≤ w) (hsum : 0 < weights.sum)
    (hcond : (∃ w ∈ weights, weights.sum ≤ 256 * w) ∨ weights[0]? ≠ some 0) :
    weights[maxElement (weightShares weights)]? ≠ some 0 := by
  by_cases hlarge : ∃ w ∈ weights, weights.sum ≤ 256 * w
  · obtain ⟨w, hw, hle⟩ := hlarge
    have hpos := (weightShare_pos_iff hsum).mpr hle
    have hbyte := byte_weightShare hnonneg hsum hw
    exact (weightShares_zeroKept weights).largest_ne (List.mem_map_of_mem hw) (by omega)
  · have hfirst := hcond.resolve_left hlarge
    push Not at hlarge
    obtain ⟨n, hn⟩ := length_pos hsum
    rw [weightShares_eq_zero hnonneg hsum hlarge, hn, List.replicate_succ, maxElement_cons_zeros]
    exact hfirst

/-- The corrected shares of weights that are not negative and not all zero. -/
theorem splitWeights_zeroKept_iff (hnonneg : ∀ w ∈ weights, 0 ≤ w) (hsum : 0 < weights.sum)
    {result : List ℕ} (h : Corrects maxSplittingBurst (weightShares weights) result) :
    ZeroKept weights result ↔
      (∃ w ∈ weights, weights.sum ≤ 256 * w) ∨ weights[0]? ≠ some 0 := by
  constructor
  · intro hkept
    by_contra hcond
    push Not at hcond
    obtain ⟨hsmall, hfirst⟩ := hcond
    obtain ⟨n, hn⟩ := length_pos hsum
    have hshares := weightShares_eq_zero hnonneg hsum hsmall
    have hne : weightShares weights ≠ [] := by
      rw [hshares, hn]
      exact List.cons_ne_nil _ _
    have hbyte : ∀ x ∈ weightShares weights, x < 256 := by
      rw [hshares]
      intro x hx
      rw [List.eq_of_mem_replicate hx]
      decide
    have hfix := h.unique (corrects_fixRounding hne hbyte (by decide))
    rw [hshares, hn, fixRounding_zeros (by decide)] at hfix
    have := hkept 0 hfirst
    rw [hfix] at this
    cases this
  · intro hcond
    exact h.zeroKept (weightShares_zeroKept weights) fun _ =>
      largest_weight_ne hnonneg hsum hcond

structure Assigned (weights : List ℚ) (burstPerLink : List ℕ) : Prop where
  /-- The rounded parts are bytes. -/
  bytes : ∀ w ∈ weights, 0 ≤ weightShare weights.sum w ∧ weightShare weights.sum w < 256
  corrects : Corrects maxSplittingBurst (weightShares weights) burstPerLink
  length : burstPerLink.length = weights.length
  sum : burstPerLink.sum = maxSplittingBurst
  zeroKept_iff : ZeroKept weights burstPerLink ↔
    (∃ w ∈ weights, weights.sum ≤ 256 * w) ∨ weights[0]? ≠ some 0

theorem splitWeights_assigned (weights : List ℚ) (hnonneg : ∀ w ∈ weights, 0 ≤ w)
    (hsum : 0 < weights.sum) :
    ∃ burstPerLink, splitWeights weights = some burstPerLink ∧ Assigned weights burstPerLink ∧
      (weights.length ≤ 256 → ZeroKept weights burstPerLink) := by
  have hlength : (weightShares weights).length = weights.length := List.length_map _
  have hne : weightShares weights ≠ [] := by
    obtain ⟨n, hn⟩ := length_pos hsum
    rw [← List.length_pos_iff, hlength, hn]
    exact Nat.succ_pos n
  have hbyte : ∀ x ∈ weightShares weights, x < 256 := by
    intro x hx
    obtain ⟨w, _, rfl⟩ := List.mem_map.mp hx
    exact byte_lt _
  have hcorrects := corrects_fixRounding hne hbyte (show maxSplittingBurst < 256 by decide)
  have hiff := splitWeights_zeroKept_iff hnonneg hsum hcorrects
  obtain ⟨hfix, hfixlen⟩ := fixRounding_sum hne hbyte (show maxSplittingBurst < 256 by decide)
  refine ⟨_, if_neg hsum.ne', ⟨?_, hcorrects, hfixlen.trans hlength, hfix, hiff⟩, ?_⟩
  · intro w hw
    obtain ⟨h0, hle⟩ := weightShare_bounds hnonneg hsum hw
    exact ⟨h0, hle.trans_lt (by decide)⟩
  · intro hlen
    exact hiff.mpr (.inl (exists_large_weight hsum hlen))

theorem splitWeights_assigned_threeLinks :
    ∃ burstPerLink, splitWeights [1, 0, 2] = some burstPerLink ∧ Assigned [1, 0, 2] burstPerLink ∧
      (3 ≤ 256 → ZeroKept [1, 0, 2] burstPerLink) :=
  splitWeights_assigned [1, 0, 2] (by norm_num) (by norm_num)

/-- With 257 equal weights each part rounds to zero, and the first link gets the burst. -/
theorem splitWeights_firstLink :
    splitWeights (0 :: List.replicate 257 1) = some (128 :: List.replicate 257 0) ∧
      ¬ ZeroKept (0 :: List.replicate 257 1) (128 :: List.replicate 257 0) := by
  have hsum : (0 :: List.replicate 257 (1 : ℚ)).sum = 257 := by
    rw [List.sum_cons, List.sum_replicate]
    norm_num
  have hmem : ∀ w ∈ 0 :: List.replicate 257 (1 : ℚ), w = 0 ∨ w = 1 := by
    intro w hw
    exact (List.mem_cons.mp hw).imp_right List.eq_of_mem_replicate
  have hshares : weightShares (0 :: List.replicate 257 1) = List.replicate 258 0 := by
    rw [weightShares_eq_zero]
    · rw [List.length_cons, List.length_replicate]
    · intro w hw
      rcases hmem w hw with rfl | rfl <;> norm_num
    · rw [hsum]
      norm_num
    · intro w hw
      rw [hsum]
      rcases hmem w hw with rfl | rfl <;> norm_num
  constructor
  · rw [splitWeights, if_neg (by rw [hsum]; norm_num), hshares, fixRounding_zeros (by decide)]
    rfl
  · intro h
    have := h 0 rfl
    cases this

end Weights
end GmaRxControl
end NetGymSim.Gma

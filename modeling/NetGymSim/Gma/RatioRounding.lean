import NetGymSim.Gma.BurstSums
import NetGymSim.Lib.Rounding
import Mathlib.Algebra.BigOperators.Ring.List
import Mathlib.Algebra.Order.BigOperators.Group.List
import Mathlib.Data.Rat.Floor
import Mathlib.Tactic.NormNum

/-!
# From ratios to a burst

The end of the delay violation algorithm with its doubles read as rationals. The ratios that fall
are rounded first, with `m_roundingScaler`, and the others share what is left of the burst. Each
falling ratio may take up to a fifth of a unit too much, so that with enough of them nothing is
left, and the share of a link that rises is negative.
-/

namespace NetGymSim.Gma
open NetGymSim.Lib

/-- The attributes that the comparisons of doubles use. -/
structure ExactTargets where
  delayThresh : ℚ := 5
  qosDelayViolationTarget : ℚ := 1 / 100
  qosLossTarget : ℚ := 1

def roundingScaler : ℚ := -(3 / 10)

def truncate (x : ℚ) : ℤ := x.num.tdiv x.den

def exactRatios (c : ExactTargets) : SplitArith ℚ where
  zero := 0
  lt a b := a < b
  apart maxDelay minDelay := maxDelay - minDelay > c.delayThresh
  close maxDelay minDelay := maxDelay - minDelay ≤ c.delayThresh
  toInt := truncate
  intLe n x := n ≤ x
  lossier maxLoss minLoss := maxLoss > minLoss * 2
  lossy loss := loss > 1 / 10000
  ratio share splittingBurst := share / splittingBurst
  roundDown s splittingBurst := roundAway (s * splittingBurst + roundingScaler)
  roundShare rest s others := roundAway (rest * s / others.sum)
  sumIsZero ratios := ratios.sum = 0
  sumsToOne ratios := 999 / 1000 ≤ ratios.sum ∧ ratios.sum ≤ 1001 / 1000
  queueing delay minOwd := if delay > minOwd then (truncate (delay - minOwd)).toNat else 0
  notNegative x := 0 ≤ x
  meetsDelay x := x < c.qosDelayViolationTarget
  meetsLoss x := x < c.qosLossTarget

namespace GmaRxControl

section Shares
variable (splittingBurst : ℕ) (newRatio lastRatio : List ℚ)

def fallingLinks : List (ℚ × ℚ) := (newRatio.zip lastRatio).filter fun p => p.1 < p.2

def risingLinks : List (ℚ × ℚ) := (newRatio.zip lastRatio).filter fun p => ¬ p.1 < p.2

def fallingShare (s : ℚ) : ℤ := roundAway (s * splittingBurst + roundingScaler)

def decreaseBurstSum : ℤ :=
  ((fallingLinks newRatio lastRatio).map fun p => fallingShare splittingBurst p.1).sum

def equalOrIncreaseRatioSum : ℚ := ((risingLinks newRatio lastRatio).map Prod.fst).sum

def risingShare (s : ℚ) : ℤ :=
  roundAway ((splittingBurst - decreaseBurstSum splittingBurst newRatio lastRatio : ℤ) * s /
    equalOrIncreaseRatioSum newRatio lastRatio)

def roundedShare (p : ℚ × ℚ) : ℤ :=
  if p.1 < p.2 then fallingShare splittingBurst p.1
  else risingShare splittingBurst newRatio lastRatio p.1

/-- The conversion of the ratios: a divisor that is positive, shares that are bytes, and
correction loops that end with a list of the size of the burst. -/
structure Quantised (result : List ℕ) : Prop where
  divisor : 0 < equalOrIncreaseRatioSum newRatio lastRatio
  bytes : ∀ p ∈ newRatio.zip lastRatio, 0 ≤ roundedShare splittingBurst newRatio lastRatio p ∧
    roundedShare splittingBurst newRatio lastRatio p < 256
  corrects : Corrects splittingBurst
    ((newRatio.zip lastRatio).map fun p => byte (roundedShare splittingBurst newRatio lastRatio p))
    result
  sum : result.sum = splittingBurst
  length : result.length = (newRatio.zip lastRatio).length

structure RatiosFit : Prop where
  /-- Some link that does not fall has a ratio. -/
  rises : ∃ p ∈ risingLinks newRatio lastRatio, 0 < p.1
  /-- The falling links take less than half a unit too much from each of the others. -/
  room : ∀ p ∈ risingLinks newRatio lastRatio,
    2 * (decreaseBurstSum splittingBurst newRatio lastRatio - splittingBurst) * p.1 <
      equalOrIncreaseRatioSum newRatio lastRatio
  /-- Some link has enough for a unit. -/
  visible : (∃ p ∈ fallingLinks newRatio lastRatio, 4 / 5 ≤ p.1 * splittingBurst) ∨
    ∃ p ∈ risingLinks newRatio lastRatio, equalOrIncreaseRatioSum newRatio lastRatio ≤
      2 * (splittingBurst - decreaseBurstSum splittingBurst newRatio lastRatio) * p.1

end Shares

section Exact
variable {c : ExactTargets} {splittingBurst : ℕ} {newRatio lastRatio : List ℚ} {p : ℚ × ℚ}

theorem keepsRatio_exact : keepsRatio (exactRatios c) newRatio lastRatio =
    (risingLinks newRatio lastRatio).map Prod.fst := by
  simp [keepsRatio, risingLinks, exactRatios]

theorem burstPerLink_exact : burstPerLink (exactRatios c) splittingBurst newRatio lastRatio =
    (newRatio.zip lastRatio).map fun p =>
      byte (roundedShare splittingBurst newRatio lastRatio p) := by
  simp [burstPerLink, roundedShare, risingShare, fallingShare, decreaseBurstSum, fallingLinks,
    equalOrIncreaseRatioSum, risingLinks, exactRatios]

theorem mem_fallingLinks :
    p ∈ fallingLinks newRatio lastRatio ↔ p ∈ newRatio.zip lastRatio ∧ p.1 < p.2 := by
  rw [fallingLinks, List.mem_filter, decide_eq_true_eq]

theorem mem_risingLinks :
    p ∈ risingLinks newRatio lastRatio ↔ p ∈ newRatio.zip lastRatio ∧ ¬ p.1 < p.2 := by
  rw [risingLinks, List.mem_filter, decide_eq_true_eq]

theorem roundedShare_falling (h : p ∈ fallingLinks newRatio lastRatio) :
    roundedShare splittingBurst newRatio lastRatio p = fallingShare splittingBurst p.1 :=
  if_pos (mem_fallingLinks.mp h).2

theorem roundedShare_rising (h : p ∈ risingLinks newRatio lastRatio) :
    roundedShare splittingBurst newRatio lastRatio p =
      risingShare splittingBurst newRatio lastRatio p.1 :=
  if_neg (mem_risingLinks.mp h).2

end Exact

section Fitting
variable {splittingBurst : ℕ} {newRatio lastRatio : List ℚ} {p : ℚ × ℚ}

theorem fallingShare_pos_iff (s : ℚ) :
    0 < fallingShare splittingBurst s ↔ 4 / 5 ≤ s * splittingBurst := by
  rw [fallingShare, roundAway_pos_iff, roundingScaler]
  constructor <;> intro h <;> linarith

theorem risingShare_nonneg_iff (hdiv : 0 < equalOrIncreaseRatioSum newRatio lastRatio) (s : ℚ) :
    0 ≤ risingShare splittingBurst newRatio lastRatio s ↔
      2 * (decreaseBurstSum splittingBurst newRatio lastRatio - splittingBurst) * s <
        equalOrIncreaseRatioSum newRatio lastRatio := by
  rw [risingShare, roundAway_nonneg_iff, lt_div_iff₀ hdiv]
  push_cast
  constructor <;> intro h <;> linarith

theorem risingShare_pos_iff (hdiv : 0 < equalOrIncreaseRatioSum newRatio lastRatio) (s : ℚ) :
    0 < risingShare splittingBurst newRatio lastRatio s ↔
      equalOrIncreaseRatioSum newRatio lastRatio ≤
        2 * (splittingBurst - decreaseBurstSum splittingBurst newRatio lastRatio) * s := by
  rw [risingShare, roundAway_pos_iff, le_div_iff₀ hdiv]
  push_cast
  constructor <;> intro h <;> linarith

theorem visible_iff (hdiv : 0 < equalOrIncreaseRatioSum newRatio lastRatio)
    (hbounds : ∀ p ∈ newRatio.zip lastRatio,
      0 ≤ roundedShare splittingBurst newRatio lastRatio p ∧
        roundedShare splittingBurst newRatio lastRatio p < 256) :
    ((newRatio.zip lastRatio).map fun p =>
        byte (roundedShare splittingBurst newRatio lastRatio p)).sum ≠ 0 ↔
      (∃ p ∈ fallingLinks newRatio lastRatio, 4 / 5 ≤ p.1 * splittingBurst) ∨
        ∃ p ∈ risingLinks newRatio lastRatio, equalOrIncreaseRatioSum newRatio lastRatio ≤
          2 * (splittingBurst - decreaseBurstSum splittingBurst newRatio lastRatio) * p.1 := by
  have hbyte : ∀ p ∈ newRatio.zip lastRatio,
      (byte (roundedShare splittingBurst newRatio lastRatio p) ≠ 0 ↔
        0 < roundedShare splittingBurst newRatio lastRatio p) := by
    intro p hp
    obtain ⟨h0, hlt⟩ := hbounds p hp
    have := byte_of_bounds h0 hlt
    omega
  constructor
  · intro hne
    obtain ⟨x, hx, hpos⟩ : ∃ x ∈ (newRatio.zip lastRatio).map fun p =>
        byte (roundedShare splittingBurst newRatio lastRatio p), x ≠ 0 := by
      by_contra hnone
      push Not at hnone
      exact hne (List.sum_eq_zero hnone)
    obtain ⟨p, hp, rfl⟩ := List.mem_map.mp hx
    have hshare := (hbyte p hp).mp hpos
    by_cases hlt : p.1 < p.2
    · have hfalling := mem_fallingLinks.mpr ⟨hp, hlt⟩
      rw [roundedShare_falling hfalling] at hshare
      exact .inl ⟨p, hfalling, (fallingShare_pos_iff _).mp hshare⟩
    · have hrising := mem_risingLinks.mpr ⟨hp, hlt⟩
      rw [roundedShare_rising hrising] at hshare
      exact .inr ⟨p, hrising, (risingShare_pos_iff hdiv _).mp hshare⟩
  · intro h
    obtain ⟨p, hp, hshare⟩ : ∃ p ∈ newRatio.zip lastRatio,
        0 < roundedShare splittingBurst newRatio lastRatio p := by
      rcases h with ⟨p, hp, hlarge⟩ | ⟨p, hp, hlarge⟩
      · refine ⟨p, (mem_fallingLinks.mp hp).1, ?_⟩
        rw [roundedShare_falling hp]
        exact (fallingShare_pos_iff _).mpr hlarge
      · refine ⟨p, (mem_risingLinks.mp hp).1, ?_⟩
        rw [roundedShare_rising hp]
        exact (risingShare_pos_iff hdiv _).mpr hlarge
    have hle := List.single_le_sum (fun _ _ => Nat.zero_le _) _
      (List.mem_map_of_mem (f := fun p =>
        byte (roundedShare splittingBurst newRatio lastRatio p)) hp)
    have := (hbyte p hp).mpr hshare
    omega

variable (hnonneg : ∀ s ∈ newRatio, 0 ≤ s)
include hnonneg

theorem ratio_nonneg (hp : p ∈ newRatio.zip lastRatio) : 0 ≤ p.1 := hnonneg _ (List.of_mem_zip hp).1

theorem fallingShare_nonneg (hp : p ∈ newRatio.zip lastRatio) :
    0 ≤ fallingShare splittingBurst p.1 := by
  have hmul : 0 ≤ p.1 * splittingBurst :=
    mul_nonneg (ratio_nonneg hnonneg hp) (Nat.cast_nonneg _)
  rw [fallingShare, roundAway_nonneg_iff, roundingScaler]
  linarith

theorem fallingShare_le (hsum : newRatio.sum = 1) (hp : p ∈ newRatio.zip lastRatio) :
    fallingShare splittingBurst p.1 ≤ splittingBurst := by
  have hone : p.1 ≤ 1 := hsum ▸ List.single_le_sum hnonneg _ (List.of_mem_zip hp).1
  have hmul : p.1 * splittingBurst ≤ splittingBurst :=
    mul_le_of_le_one_left (Nat.cast_nonneg _) hone
  refine roundAway_le (Nat.cast_nonneg _) ?_
  rw [roundingScaler]
  push_cast
  linarith

theorem decreaseBurstSum_nonneg : 0 ≤ decreaseBurstSum splittingBurst newRatio lastRatio := by
  refine List.sum_nonneg fun x hx => ?_
  obtain ⟨p, hp, rfl⟩ := List.mem_map.mp hx
  exact fallingShare_nonneg hnonneg (mem_fallingLinks.mp hp).1

theorem rising_le_sum (hp : p ∈ risingLinks newRatio lastRatio) :
    p.1 ≤ equalOrIncreaseRatioSum newRatio lastRatio := by
  refine List.single_le_sum ?_ _ (List.mem_map_of_mem hp)
  intro x hx
  obtain ⟨q, hq, rfl⟩ := List.mem_map.mp hx
  exact ratio_nonneg hnonneg (mem_risingLinks.mp hq).1

theorem divisor_pos_iff : 0 < equalOrIncreaseRatioSum newRatio lastRatio ↔
    ∃ p ∈ risingLinks newRatio lastRatio, 0 < p.1 := by
  constructor
  · intro h
    by_contra hnone
    push Not at hnone
    have hzero : equalOrIncreaseRatioSum newRatio lastRatio = 0 := by
      refine List.sum_eq_zero fun x hx => ?_
      obtain ⟨p, hp, rfl⟩ := List.mem_map.mp hx
      exact le_antisymm (hnone p hp) (ratio_nonneg hnonneg (mem_risingLinks.mp hp).1)
    exact absurd h hzero.not_gt
  · intro h
    obtain ⟨p, hp, hpos⟩ := h
    exact hpos.trans_le (rising_le_sum hnonneg hp)

theorem risingShare_le (hdiv : 0 < equalOrIncreaseRatioSum newRatio lastRatio)
    (hp : p ∈ risingLinks newRatio lastRatio) :
    risingShare splittingBurst newRatio lastRatio p.1 ≤ splittingBurst := by
  have h0 := ratio_nonneg hnonneg (mem_risingLinks.mp hp).1
  have hle := rising_le_sum hnonneg hp
  have hdec : (0 : ℚ) ≤ decreaseBurstSum splittingBurst newRatio lastRatio := by
    exact_mod_cast decreaseBurstSum_nonneg hnonneg
  refine roundAway_le (Nat.cast_nonneg _) ?_
  rw [div_le_iff₀ hdiv]
  push_cast
  have hburst : (0 : ℚ) ≤ splittingBurst := Nat.cast_nonneg _
  calc ((splittingBurst : ℚ) - decreaseBurstSum splittingBurst newRatio lastRatio) * p.1
      ≤ splittingBurst * p.1 := mul_le_mul_of_nonneg_right (by linarith) h0
    _ ≤ splittingBurst * equalOrIncreaseRatioSum newRatio lastRatio :=
        mul_le_mul_of_nonneg_left hle hburst

theorem roundedShare_bounds (hsum : newRatio.sum = 1)
    (hdiv : 0 < equalOrIncreaseRatioSum newRatio lastRatio)
    (hroom : ∀ p ∈ risingLinks newRatio lastRatio,
      2 * (decreaseBurstSum splittingBurst newRatio lastRatio - splittingBurst) * p.1 <
        equalOrIncreaseRatioSum newRatio lastRatio) (hp : p ∈ newRatio.zip lastRatio) :
    0 ≤ roundedShare splittingBurst newRatio lastRatio p ∧
      roundedShare splittingBurst newRatio lastRatio p ≤ splittingBurst := by
  by_cases hlt : p.1 < p.2
  · rw [roundedShare, if_pos hlt]
    exact ⟨fallingShare_nonneg hnonneg hp, fallingShare_le hnonneg hsum hp⟩
  · have hrising := mem_risingLinks.mpr ⟨hp, hlt⟩
    rw [roundedShare, if_neg hlt]
    exact ⟨(risingShare_nonneg_iff hdiv _).mpr (hroom p hrising),
      risingShare_le hnonneg hdiv hrising⟩

theorem quantised_fixRounding (hsum : newRatio.sum = 1) (hburst : splittingBurst < 256)
    (hrises : ∃ p ∈ risingLinks newRatio lastRatio, 0 < p.1)
    (hroom : ∀ p ∈ risingLinks newRatio lastRatio,
      2 * (decreaseBurstSum splittingBurst newRatio lastRatio - splittingBurst) * p.1 <
        equalOrIncreaseRatioSum newRatio lastRatio) :
    Quantised splittingBurst newRatio lastRatio (fixRounding splittingBurst
      ((newRatio.zip lastRatio).map fun p =>
        byte (roundedShare splittingBurst newRatio lastRatio p))) := by
  have hdiv := (divisor_pos_iff hnonneg).mpr hrises
  have hne : ((newRatio.zip lastRatio).map fun p =>
      byte (roundedShare splittingBurst newRatio lastRatio p)) ≠ [] := by
    obtain ⟨p, hp, -⟩ := hrises
    exact List.ne_nil_of_mem (List.mem_map_of_mem (mem_risingLinks.mp hp).1)
  have hbyte : ∀ x ∈ (newRatio.zip lastRatio).map fun p =>
      byte (roundedShare splittingBurst newRatio lastRatio p), x < 256 := by
    intro x hx
    obtain ⟨p, -, rfl⟩ := List.mem_map.mp hx
    exact byte_lt _
  obtain ⟨hfix, hlen⟩ := fixRounding_sum hne hbyte hburst
  refine ⟨hdiv, fun p hp => ?_, corrects_fixRounding hne hbyte hburst, hfix,
    hlen.trans (List.length_map _)⟩
  obtain ⟨h0, hle⟩ := roundedShare_bounds hnonneg hsum hdiv hroom hp
  exact ⟨h0, hle.trans_lt (by exact_mod_cast hburst)⟩

theorem Quantised.rises {result : List ℕ} (h : Quantised splittingBurst newRatio lastRatio result) :
    ∃ p ∈ risingLinks newRatio lastRatio, 0 < p.1 :=
  (divisor_pos_iff hnonneg).mp h.divisor

omit hnonneg in
theorem Quantised.room {result : List ℕ} (h : Quantised splittingBurst newRatio lastRatio result)
    (hp : p ∈ risingLinks newRatio lastRatio) :
    2 * (decreaseBurstSum splittingBurst newRatio lastRatio - splittingBurst) * p.1 <
      equalOrIncreaseRatioSum newRatio lastRatio := by
  have h0 := (h.bytes p (mem_risingLinks.mp hp).1).1
  rw [roundedShare_rising hp] at h0
  exact (risingShare_nonneg_iff h.divisor _).mp h0

end Fitting

section Algorithm
variable (c : ExactTargets) (m : RxMeasurement ℚ) (v : ViolationState ℚ) (inputs : Inputs ℚ)

theorem newBurst_lt (h : v.rx.splittingBurst < 256) : newBurst inputs v.rx < 256 := by
  unfold newBurst adaptiveBurst
  split_ifs
  · have hle : (min (max 3 inputs.estBurstRequirement) 7).toNat ≤ 7 := by omega
    exact (Nat.pow_le_pow_right (by decide) hle).trans_lt (by decide)
  · exact h

variable {c m v inputs}

theorem takeShares_spec {v' : ViolationState ℚ} {changed : Bool} {newRatio : List ℚ}
    {shares : List ℕ} (h : takeShares m v newRatio shares = (v', changed))
    (hlen : shares.length = m.links) :
    v'.rx.splittingBurst = v.rx.splittingBurst ∧
      v'.rx.lastSplittingIndexList.take m.links = shares := by
  unfold takeShares at h
  split_ifs at h with hne
  · cases h
    refine ⟨rfl, ?_⟩
    rw [← hlen]
    exact List.take_length
  · cases h
    exact ⟨rfl, not_not.mp hne⟩

section Conversion
variable (hlinks : inputs.newRatio.length = m.links) (hlast : m.links ≤ v.lastRatio.length)
  (hnonneg : ∀ s ∈ inputs.newRatio, 0 ≤ s) (hsum : inputs.newRatio.sum = 1)
include hlinks hlast

theorem rounded_length : ((inputs.newRatio.zip v.lastRatio).map fun p =>
    byte (roundedShare (newBurst inputs v.rx) inputs.newRatio v.lastRatio p)).length = m.links := by
  rw [List.length_map, List.length_zip, hlinks, min_eq_left hlast]

include hsum

theorem applyRatio_exact : applyRatio (exactRatios c) m v inputs =
    let rounded := (inputs.newRatio.zip v.lastRatio).map fun p =>
      byte (roundedShare (newBurst inputs v.rx) inputs.newRatio v.lastRatio p)
    if equalOrIncreaseRatioSum inputs.newRatio v.lastRatio = 0 ∨ rounded.sum = 0 then
      .error .sumMismatch
    else .ok (takeShares m { v with rx := { v.rx with splittingBurst := newBurst inputs v.rx } }
      inputs.newRatio (fixRounding (newBurst inputs v.rx) rounded)) := by
  have hnil : inputs.newRatio ≠ [] := by
    intro hnil
    rw [hnil] at hsum
    exact zero_ne_one hsum
  have hsize : ¬ (inputs.newRatio.length ≠ m.links ∨ v.lastRatio.length < m.links) := by
    rw [not_or, not_not, not_lt]
    exact ⟨hlinks, hlast⟩
  have hone : (exactRatios c).sumsToOne inputs.newRatio = true := by
    simp only [exactRatios, hsum, decide_eq_true_eq]
    norm_num
  simp only [applyRatio, if_neg hnil, if_neg hsize, hone, burstPerLink_exact, keepsRatio_exact,
    not_true_eq_false, false_or]
  refine if_congr (or_congr_left ?_) rfl rfl
  simp only [exactRatios, decide_eq_true_eq, equalOrIncreaseRatioSum]

include hnonneg

theorem fits_of_quantises {v' : ViolationState ℚ} {changed : Bool}
    (h : applyRatio (exactRatios c) m v inputs = .ok (v', changed))
    (hq : Quantised v'.rx.splittingBurst inputs.newRatio v.lastRatio
      (v'.rx.lastSplittingIndexList.take m.links)) :
    RatiosFit (newBurst inputs v.rx) inputs.newRatio v.lastRatio := by
  rw [applyRatio_exact hlinks hlast hsum] at h
  dsimp only at h
  split_ifs at h with hbad
  rw [not_or] at hbad
  obtain ⟨hburst, -⟩ := takeShares_spec (Except.ok.inj h)
    ((fixRounding_length _ _).trans (rounded_length hlinks hlast))
  rw [hburst] at hq
  exact ⟨hq.rises hnonneg, fun p hp => hq.room hp, (visible_iff hq.divisor hq.bytes).mp hbad.2⟩

theorem quantises_of_fits (hburst : v.rx.splittingBurst < 256)
    (h : RatiosFit (newBurst inputs v.rx) inputs.newRatio v.lastRatio) :
    ∃ v' changed, applyRatio (exactRatios c) m v inputs = .ok (v', changed) ∧
      Quantised v'.rx.splittingBurst inputs.newRatio v.lastRatio
        (v'.rx.lastSplittingIndexList.take m.links) := by
  have hq := quantised_fixRounding hnonneg hsum (newBurst_lt v inputs hburst) h.rises h.room
  rw [applyRatio_exact hlinks hlast hsum]
  dsimp only
  rw [if_neg (not_or.mpr ⟨hq.divisor.ne', (visible_iff hq.divisor hq.bytes).mpr h.visible⟩)]
  generalize hr : takeShares m _ _ _ = r
  obtain ⟨v', changed⟩ := r
  obtain ⟨hburst', htake⟩ := takeShares_spec hr
    ((fixRounding_length _ _).trans (rounded_length hlinks hlast))
  refine ⟨v', changed, rfl, ?_⟩
  rw [hburst', htake]
  exact hq

end Conversion

/-- The conversion goes through just when the ratios fit the burst. -/
theorem applyRatio_quantises_iff (c : ExactTargets) (m : RxMeasurement ℚ) (v : ViolationState ℚ)
    (inputs : Inputs ℚ) (hlinks : inputs.newRatio.length = m.links)
    (hlast : m.links ≤ v.lastRatio.length) (hnonneg : ∀ s ∈ inputs.newRatio, 0 ≤ s)
    (hsum : inputs.newRatio.sum = 1) (hburst : v.rx.splittingBurst < 256) :
    (∃ v' changed, applyRatio (exactRatios c) m v inputs = .ok (v', changed) ∧
        Quantised v'.rx.splittingBurst inputs.newRatio v.lastRatio
          (v'.rx.lastSplittingIndexList.take m.links)) ↔
      RatiosFit (newBurst inputs v.rx) inputs.newRatio v.lastRatio := by
  constructor
  · intro h
    obtain ⟨v', changed, h, hq⟩ := h
    exact fits_of_quantises hlinks hlast hnonneg hsum h hq
  · exact quantises_of_fits hlinks hlast hnonneg hsum hburst

def violationState (lastRatio : List ℚ) : ViolationState ℚ :=
  { rx := { splittingBurst := 8 }, linkState := { cidList := [] }, lastRatio }

theorem applyRatio_quantises_iff_twoLinks :
    (∃ v' changed, applyRatio (exactRatios {}) { links := 2 } (violationState [1 / 2, 1 / 2])
          { newRatio := [1 / 4, 3 / 4] } = .ok (v', changed) ∧
        Quantised v'.rx.splittingBurst [1 / 4, 3 / 4] [1 / 2, 1 / 2]
          (v'.rx.lastSplittingIndexList.take 2)) ↔
      RatiosFit 8 [1 / 4, 3 / 4] [1 / 2, 1 / 2] :=
  applyRatio_quantises_iff {} { links := 2 } (violationState [1 / 2, 1 / 2])
    { newRatio := [1 / 4, 3 / 4] } rfl (by decide) (by norm_num) (by norm_num) (by decide)

def sevenRatios : List ℚ := [9 / 40, 9 / 40, 9 / 40, 1 / 10, 1 / 10, 1 / 10, 1 / 40]

def sevenLastRatios : List ℚ := [11 / 48, 11 / 48, 11 / 48, 5 / 48, 5 / 48, 5 / 48, 0]

/-- Six links that fall take nine units of eight, and the last byte is that of -1. -/
theorem roundedShare_wraps :
    sevenRatios.sum = 1 ∧ sevenLastRatios.sum = 1 ∧
      roundedShare 8 sevenRatios sevenLastRatios (1 / 40, 0) = -1 ∧ byte (-1) = 255 ∧
      ¬ ∃ v' changed, applyRatio (exactRatios {}) { links := 7 } (violationState sevenLastRatios)
          { newRatio := sevenRatios } = .ok (v', changed) ∧
        Quantised v'.rx.splittingBurst sevenRatios sevenLastRatios
          (v'.rx.lastSplittingIndexList.take 7) := by
  have hsum : sevenRatios.sum = 1 := by decide +kernel
  have hnonneg : ∀ s ∈ sevenRatios, 0 ≤ s := by decide +kernel
  refine ⟨hsum, by decide +kernel, by decide +kernel, rfl, fun h => ?_⟩
  obtain ⟨v', changed, h, hq⟩ := h
  have hfit := fits_of_quantises rfl (by decide) hnonneg hsum h hq
  have hrising : ((1 / 40, 0) : ℚ × ℚ) ∈ risingLinks sevenRatios sevenLastRatios := by
    decide +kernel
  exact absurd (hfit.room _ hrising) (by decide +kernel)

end Algorithm
end GmaRxControl
end NetGymSim.Gma

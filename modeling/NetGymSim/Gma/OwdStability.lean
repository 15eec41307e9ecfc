import NetGymSim.Gma.Measurement
import Mathlib.Algebra.Order.Field.Rat
import Mathlib.Tactic.Linarith
import Mathlib.Tactic.Positivity
import Mathlib.Tactic.Push

/-!
# Whether the one-way delay has settled

At the end of an interval the averages of this interval and of the last one are subtracted as
`uint32_t` before `std::abs` sees a double. A delay that falls is thus a change of almost `2^32`.
Doubles are rationals here.
-/

namespace NetGymSim.Gma.Measure
open NetGymSim.Lib

def owdConvergeThreshold : ℚ := 1 / 10

def rationals : MeasureArith ℚ where
  zero := 0
  one := 1
  minusOne := -1
  ofNat n := n
  ratio a b := a / b
  lt a b := a < b
  converged a := a < owdConvergeThreshold
  weigh n := 4 / 5 * n

namespace MeasureDevice
section Averages
variable {δ : Type} (A : MeasureArith δ) (d : MeasureDevice δ)

def aveOwd : ℕ := d.sumOwdPerInterval / d.numOfOwdPacketsPerInterval % 4294967296

def usedRtt : Except MeasureFault ℕ := do
  let rtt ← d.getRtt
  return if rtt = 0 then 200 else rtt

def swapAverages : MeasureDevice δ :=
  { d with
    lastIntervalOwd := d.aveOwd
    sumOwdPerInterval := d.lastIntervalOwd
    numOfOwdPacketsPerInterval := 1 }

variable {A d}

theorem closeInterval_measured {r : ℕ} (hpackets : 0 < d.numOfOwdPacketsPerInterval)
    (hlast : d.lastIntervalOwd ≠ noOwd) (hr : d.usedRtt = .ok r) :
    d.closeInterval A = .ok { d with
      lastIntervalOwdDiff := A.ratio (sub32 d.aveOwd d.lastIntervalOwd) (A.ofNat r)
      lastIntervalOwd := d.aveOwd } := by
  unfold usedRtt at hr
  unfold closeInterval
  rw [if_pos hpackets, if_pos hlast]
  cases hrtt : d.getRtt with
  | error e =>
    rw [hrtt] at hr
    cases hr
  | ok rtt =>
    rw [hrtt] at hr
    cases hr
    rfl

theorem usedRtt_bounds {r : ℕ} (hlast : d.lastIntervalOwd ≠ noOwd) (hr : d.usedRtt = .ok r) :
    0 < r ∧ r < 4294967296 := by
  unfold usedRtt getRtt at hr
  rw [if_pos hlast] at hr
  split_ifs at hr with hneg
  · cases hr
  · cases hr
    have hlt := add32_lt d.rtt d.lastIntervalOwd
    split_ifs with hzero
    · decide
    · omega

end Averages

section Stability
variable {d : MeasureDevice ℚ} {a b r : ℕ}

def owdDiff (d : MeasureDevice ℚ) : Except MeasureFault ℚ :=
  (d.closeInterval rationals).map MeasureDevice.lastIntervalOwdDiff

def settled (d : MeasureDevice ℚ) : Except MeasureFault Bool :=
  d.owdDiff.map rationals.converged

theorem owdDiff_eq (hpackets : 0 < d.numOfOwdPacketsPerInterval)
    (hlast : d.lastIntervalOwd ≠ noOwd) (hr : d.usedRtt = .ok r) :
    d.owdDiff = .ok ((sub32 d.aveOwd d.lastIntervalOwd : ℕ) / r) := by
  rw [owdDiff, closeInterval_measured hpackets hlast hr]
  rfl

theorem settled_eq (hpackets : 0 < d.numOfOwdPacketsPerInterval)
    (hlast : d.lastIntervalOwd ≠ noOwd) (hr : d.usedRtt = .ok r) :
    d.settled = .ok (10 * sub32 d.aveOwd d.lastIntervalOwd < r) := by
  have hpos : (0 : ℚ) < r := by exact_mod_cast (usedRtt_bounds hlast hr).1
  rw [settled, owdDiff_eq hpackets hlast hr]
  refine congrArg Except.ok (decide_eq_decide.mpr ?_)
  rw [div_lt_iff₀ hpos, owdConvergeThreshold]
  constructor
  · intro h
    have h' : (10 * sub32 d.aveOwd d.lastIntervalOwd : ℚ) < r := by linarith
    exact_mod_cast h'
  · intro h
    have h' : (10 * sub32 d.aveOwd d.lastIntervalOwd : ℚ) < r := by exact_mod_cast h
    linarith

theorem sub32_eq_distance_iff (ha : a < 4294967296) (hb : b < 4294967296) :
    ((sub32 b a : ℕ) : ℚ) = |(b : ℚ) - a| ↔ a ≤ b ∨ a = b + 2147483648 := by
  rcases le_or_gt a b with hle | hlt
  · have hcast : ((b - a : ℕ) : ℚ) = |(b : ℚ) - a| := by
      rw [Nat.cast_sub hle, abs_of_nonneg (sub_nonneg.mpr (by exact_mod_cast hle))]
    rw [sub32_of_le hb hle, hcast]
    exact iff_of_true rfl (.inl hle)
  · have hcast : ((a - b : ℕ) : ℚ) = |(b : ℚ) - a| := by
      rw [Nat.cast_sub hlt.le, abs_sub_comm, abs_of_pos (sub_pos.mpr (by exact_mod_cast hlt))]
    rw [sub32_of_lt ha hlt, ← hcast, Nat.cast_inj]
    omega

theorem settled_swap_iff {r r' : ℕ} (ha : a < 4294967296) (hb : b < 4294967296) (hr : 0 < r)
    (hr' : 0 < r') (hlt : r < 4294967296) (hlt' : r' < 4294967296) :
    (10 * sub32 b a < r ↔ 10 * sub32 a b < r') ↔
      a = b ∨ r ≤ 10 * sub32 b a ∧ r' ≤ 10 * sub32 a b := by
  rcases lt_trichotomy a b with hab | rfl | hab
  · have hup := sub32_of_le hb hab.le
    have hdown := sub32_of_lt hb hab
    omega
  · have hzero := sub32_of_le ha le_rfl
    omega
  · have hup := sub32_of_le ha hab.le
    have hdown := sub32_of_lt ha hab
    omega

/-- The quantity is the relative distance of the averages, and exchanging them does not change the
decision, just under these conditions. -/
theorem owdDiff_iff {r r' : ℕ} (hpackets : 0 < d.numOfOwdPacketsPerInterval)
    (hlast : d.lastIntervalOwd < noOwd) (hthis : d.aveOwd < noOwd) (hr : d.usedRtt = .ok r)
    (hr' : d.swapAverages.usedRtt = .ok r') :
    (d.owdDiff = .ok (|(d.aveOwd : ℚ) - d.lastIntervalOwd| / r) ∧
        d.settled = d.swapAverages.settled) ↔
      (d.lastIntervalOwd ≤ d.aveOwd ∨ d.lastIntervalOwd = d.aveOwd + 2147483648) ∧
        (d.lastIntervalOwd = d.aveOwd ∨
          r ≤ 10 * sub32 d.aveOwd d.lastIntervalOwd ∧
            r' ≤ 10 * sub32 d.lastIntervalOwd d.aveOwd) := by
  have ha : d.lastIntervalOwd < 4294967296 := hlast.trans (by decide)
  have hb : d.aveOwd < 4294967296 := hthis.trans (by decide)
  have hswap : d.swapAverages.aveOwd = d.lastIntervalOwd := by
    show d.lastIntervalOwd / 1 % 4294967296 = d.lastIntervalOwd
    rw [Nat.div_one, Nat.mod_eq_of_lt ha]
  obtain ⟨hpos, hlt⟩ := usedRtt_bounds hlast.ne hr
  obtain ⟨hpos', hlt'⟩ := usedRtt_bounds hthis.ne hr'
  have hne : (r : ℚ) ≠ 0 := by exact_mod_cast hpos.ne'
  have hsettled' : d.swapAverages.settled =
      .ok (10 * sub32 d.lastIntervalOwd d.aveOwd < r') := by
    rw [settled_eq Nat.one_pos hthis.ne hr', hswap]
    rfl
  rw [owdDiff_eq hpackets hlast.ne hr, settled_eq hpackets hlast.ne hr, hsettled',
    Except.ok.injEq, Except.ok.injEq, div_left_inj' hne, sub32_eq_distance_iff ha hb,
    decide_eq_decide, settled_swap_iff ha hb hpos hpos' hlt hlt']

def delayChange (last this : ℕ) : MeasureDevice ℚ where
  cid := 0
  rtt := 100
  owdSameTimeAsRtt := 100
  numOfOwdPacketsPerInterval := 1
  sumOwdPerInterval := this
  lastIntervalOwd := last
  lastIntervalOwdDiff := 1

theorem owdDiff_iff_rising :
    ((delayChange 100 150).owdDiff =
          .ok (|((delayChange 100 150).aveOwd : ℚ) - (delayChange 100 150).lastIntervalOwd| /
            (100 : ℕ)) ∧
        (delayChange 100 150).settled = (delayChange 100 150).swapAverages.settled) ↔
      ((delayChange 100 150).lastIntervalOwd ≤ (delayChange 100 150).aveOwd ∨
          (delayChange 100 150).lastIntervalOwd = (delayChange 100 150).aveOwd + 2147483648) ∧
        ((delayChange 100 150).lastIntervalOwd = (delayChange 100 150).aveOwd ∨
          100 ≤ 10 * sub32 (delayChange 100 150).aveOwd (delayChange 100 150).lastIntervalOwd ∧
            150 ≤ 10 *
              sub32 (delayChange 100 150).lastIntervalOwd (delayChange 100 150).aveOwd) :=
  owdDiff_iff (by decide) (by decide) (by decide) rfl rfl

/-- A fall by 5 ms at an RTT of 105 ms counts as a large change, and the rise by as much does
not. -/
theorem owdDiff_falling :
    (delayChange 105 100).owdDiff = .ok (4294967291 / 105) ∧
      |((delayChange 105 100).aveOwd : ℚ) - (delayChange 105 100).lastIntervalOwd| / 105 = 1 / 21 ∧
      (delayChange 105 100).settled = .ok false ∧
      (delayChange 105 100).swapAverages.settled = .ok true := by
  have hr : (delayChange 105 100).usedRtt = .ok 105 := rfl
  have hr' : (delayChange 105 100).swapAverages.usedRtt = .ok 100 := rfl
  have hdiff : sub32 (delayChange 105 100).aveOwd (delayChange 105 100).lastIntervalOwd =
      4294967291 := rfl
  have hthis : (delayChange 105 100).aveOwd = 100 := rfl
  have hlast : (delayChange 105 100).lastIntervalOwd = 105 := rfl
  refine ⟨?_, ?_, settled_eq (by decide) (by decide) hr, settled_eq (by decide) (by decide) hr'⟩
  · rw [owdDiff_eq (by decide) (by decide) hr, hdiff]
    norm_num
  · rw [hthis, hlast]
    norm_num

end Stability
end MeasureDevice

namespace MeasurementManager

end MeasurementManager
end NetGymSim.Gma.Measure

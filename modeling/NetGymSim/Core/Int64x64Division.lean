import NetGymSim.Core.Int64x64
import NetGymSim.Lib.Machine

/-!
# Division and inversion of `int64x64_t`

The digits of the fraction are found in rounds. A round shifts the remainder to the left and the
divisor to the right, divides, and appends as many digits as there were shifts. Up to 2^127 the
divisor is never greater than a remainder with its highest bit set, so only zeros are cast off from
the divisor and nothing is lost.
-/

namespace NetGymSim.Core.Int64x64
open NetGymSim.Lib

/-- The variables of `Udiv`: `digis` digits of the fraction are known, `shift` more are coming. -/
structure Udiv where
  rem : ℕ
  den : ℕ
  result : ℕ
  digis : ℕ
  shift : ℕ

namespace Udiv

def skipDivisor (x : Udiv) : Turn Udiv :=
  if x.shift < 64 ∧ x.den &&& 1 = 0 then
    .again { x with shift := x.shift + 1, den := x.den >>> 1 }
  else .done x

def skipRemainder (x : Udiv) : Turn Udiv :=
  if x.digis + x.shift < 64 ∧ x.rem &&& 2 ^ 127 = 0 then
    .again { x with shift := x.shift + 1, rem := shl128 x.rem 1 }
  else .done x

def castOff (x : Udiv) : Turn Udiv :=
  if x.digis + x.shift < 64 ∧ (x.den &&& 1 = 0 ∨ x.rem < x.den) then
    .again { x with shift := x.shift + 1, den := x.den >>> 1 }
  else .done x

def divide (x : Udiv) : Udiv where
  rem := x.rem % x.den
  den := x.den
  result := add128 (shl128 x.result x.shift) (x.rem / x.den)
  digis := x.digis + x.shift
  shift := 0

def rounds : ℕ → Udiv → Option Udiv
  | 0, _ => none
  | fuel + 1, x =>
      if x.digis < 64 ∧ x.rem ≠ 0 then
        let x := loop castOff 65 (loop skipRemainder 65 x)
        if x.den = 0 then none else rounds fuel x.divide
      else some x

def finish (x : Udiv) : ℕ :=
  if x.digis < 64 then shl128 x.result (64 - x.digis) else x.result

end Udiv

def udiv (fuel a b : ℕ) : Option ℕ :=
  if b = 0 then none
  else
    let x := loop Udiv.skipDivisor 65
      { rem := a % b, den := b, result := a / b, digis := 0, shift := 0 }
    (Udiv.rounds fuel x).map Udiv.finish

namespace Udiv
variable {a b : ℕ} {x : Udiv}

/-- The digits that are known are those of `a / b`, and the remainder is what is left, in units of
the zeros that were cast off from the divisor. -/
structure Holds (a b : ℕ) (x : Udiv) : Prop where
  exact : ∃ zeros quo, b = x.den * 2 ^ zeros ∧ x.result = quo % 2 ^ 128 ∧
    a * 2 ^ (x.digis + x.shift) = quo * 2 ^ x.shift * b + x.rem * 2 ^ zeros
  rem_lt : x.rem < x.den * 2 ^ x.shift
  rem_fits : x.rem < 2 ^ 128
  digits : x.digis + x.shift ≤ 64

theorem low_bit (n : ℕ) : n &&& 1 = n % 2 := Nat.and_one_is_mod n

theorem high_bit {n : ℕ} (hn : n < 2 ^ 128) : n &&& 2 ^ 127 = 0 ↔ n < 2 ^ 127 := by
  rw [Nat.and_two_pow, Nat.testBit_eq_decide_div_mod_eq]
  have hle : n / 2 ^ 127 < 2 := Nat.div_lt_of_lt_mul (by omega)
  by_cases hlt : n < 2 ^ 127
  · rw [Nat.div_eq_of_lt hlt]
    exact iff_of_true (by simp) hlt
  · have hone : n / 2 ^ 127 = 1 := by omega
    rw [hone]
    exact iff_of_false (by simp) hlt

theorem den_pos (hx : Holds a b x) (hb : 0 < b) : 0 < x.den := by
  obtain ⟨zeros, quo, hden, _⟩ := hx.exact
  by_contra hzero
  rw [Nat.eq_zero_of_not_pos hzero, Nat.zero_mul] at hden
  omega

theorem den_le (hx : Holds a b x) : x.den ≤ b := by
  obtain ⟨zeros, quo, hden, _⟩ := hx.exact
  rw [hden]
  exact Nat.le_mul_of_pos_right x.den (Nat.two_pow_pos zeros)

theorem Holds.shiftDen (hx : Holds a b x) (heven : x.den % 2 = 0) (hroom : x.digis + x.shift < 64) :
    Holds a b { x with shift := x.shift + 1, den := x.den >>> 1 } := by
  obtain ⟨zeros, quo, hden, hresult, hvalue⟩ := hx.exact
  have hhalf : x.den = 2 * (x.den >>> 1) := by
    rw [Nat.shiftRight_eq_div_pow, Nat.pow_one]
    omega
  refine ⟨⟨zeros + 1, quo, ?_, hresult, ?_⟩, ?_, hx.rem_fits, hroom⟩
  · dsimp only
    rw [hden, Nat.pow_succ]
    nth_rewrite 1 [hhalf]
    ring
  · dsimp only
    rw [← Nat.add_assoc, Nat.pow_succ, ← Nat.mul_assoc, hvalue]
    ring
  · have hlt := hx.rem_lt
    rw [hhalf] at hlt
    dsimp only
    rw [Nat.pow_succ]
    linarith

theorem Holds.shiftRem (hx : Holds a b x) (hlow : x.rem < 2 ^ 127)
    (hroom : x.digis + x.shift < 64) :
    Holds a b { x with shift := x.shift + 1, rem := shl128 x.rem 1 } := by
  obtain ⟨zeros, quo, hden, hresult, hvalue⟩ := hx.exact
  have htwice : shl128 x.rem 1 = 2 * x.rem := by
    rw [shl128, Nat.shiftLeft_eq]
    omega
  refine ⟨⟨zeros, quo, hden, hresult, ?_⟩, ?_, ?_, hroom⟩
  · dsimp only
    rw [htwice, ← Nat.add_assoc, Nat.pow_succ, ← Nat.mul_assoc, hvalue]
    ring
  · have hlt := hx.rem_lt
    dsimp only
    rw [htwice, Nat.pow_succ]
    linarith
  · dsimp only
    rw [htwice]
    omega

theorem Holds.divide (hx : Holds a b x) (hb : 0 < b) : Holds a b x.divide := by
  obtain ⟨zeros, quo, hden, hresult, hvalue⟩ := hx.exact
  have hpos := den_pos hx hb
  refine ⟨⟨zeros, quo * 2 ^ x.shift + x.rem / x.den, hden, ?_, ?_⟩, ?_, ?_, ?_⟩
  · dsimp only [Udiv.divide]
    rw [add128, shl128, Nat.shiftLeft_eq, hresult]
    simp [Nat.add_mod, Nat.mul_mod]
  · dsimp only [Udiv.divide]
    rw [Nat.add_zero, hvalue, Nat.pow_zero, Nat.mul_one, Nat.add_mul, Nat.add_assoc]
    congr 1
    calc x.rem * 2 ^ zeros = (x.rem / x.den * x.den + x.rem % x.den) * 2 ^ zeros := by
          rw [Nat.div_add_mod']
      _ = x.rem / x.den * b + x.rem % x.den * 2 ^ zeros := by
          rw [hden]
          ring
  · dsimp only [Udiv.divide]
    rw [Nat.pow_zero, Nat.mul_one]
    exact Nat.mod_lt _ hpos
  · exact (Nat.mod_le x.rem x.den).trans_lt hx.rem_fits
  · exact hx.digits

theorem loop_skipRemainder (hx : Holds a b x) :
    let y := loop skipRemainder 65 x
    Holds a b y ∧ y.digis = x.digis ∧ y.den = x.den ∧ x.shift ≤ y.shift ∧
      (y.digis + y.shift < 64 → 2 ^ 127 ≤ y.rem) := by
  apply loop_spec
    (P := fun y => Holds a b y ∧ y.digis = x.digis ∧ y.den = x.den ∧ x.shift ≤ y.shift)
    (Q := fun y => Holds a b y ∧ y.digis = x.digis ∧ y.den = x.den ∧ x.shift ≤ y.shift ∧
      (y.digis + y.shift < 64 → 2 ^ 127 ≤ y.rem)) (fun y => 64 - y.shift)
  · intro y y' hy hturn
    obtain ⟨hholds, hdigis, hden, hshift⟩ := hy
    unfold skipRemainder at hturn
    split_ifs at hturn with hguard
    cases hturn
    have hroom : y.shift < 64 := by omega
    refine ⟨⟨?_, hdigis, hden, Nat.le_succ_of_le hshift⟩, ?_⟩
    · exact hholds.shiftRem ((high_bit hholds.rem_fits).mp hguard.2) hguard.1
    · dsimp only
      omega
  · intro y y' hy hturn
    obtain ⟨hholds, hdigis, hden, hshift⟩ := hy
    unfold skipRemainder at hturn
    split_ifs at hturn with hguard
    cases hturn
    refine ⟨hholds, hdigis, hden, hshift, fun hroom => ?_⟩
    by_contra hlow
    exact hguard ⟨hroom, (high_bit hholds.rem_fits).mpr (Nat.not_le.mp hlow)⟩
  · exact ⟨hx, rfl, rfl, Nat.le_refl _⟩
  · omega

/-- A great remainder is not less than the divisor, so the bits cast off are zeros. -/
theorem loop_castOff (hx : Holds a b x) (hb : b ≤ 2 ^ 127)
    (hgreat : x.digis + x.shift < 64 → 2 ^ 127 ≤ x.rem) :
    let y := loop castOff 65 x
    Holds a b y ∧ y.digis = x.digis ∧ x.shift ≤ y.shift := by
  have hall := loop_spec (b := castOff)
    (P := fun y => Holds a b y ∧ y.digis = x.digis ∧ x.shift ≤ y.shift ∧ y.rem = x.rem)
    (Q := fun y => Holds a b y ∧ y.digis = x.digis ∧ x.shift ≤ y.shift) (fun y => 64 - y.shift)
    ?_ ?_ 65 (s := x) ⟨hx, rfl, Nat.le_refl _, rfl⟩ (by omega)
  · exact hall
  · intro y y' hy hturn
    obtain ⟨hholds, hdigis, hshift, hrem⟩ := hy
    unfold castOff at hturn
    split_ifs at hturn with hguard
    cases hturn
    have hroom : y.shift < 64 := by omega
    have heven : y.den % 2 = 0 := by
      obtain hzero | hless := hguard.2
      · rwa [low_bit] at hzero
      · have hle := den_le hholds
        have hge := hgreat (by omega)
        omega
    refine ⟨⟨?_, hdigis, Nat.le_succ_of_le hshift, hrem⟩, ?_⟩
    · exact hholds.shiftDen heven hguard.1
    · dsimp only
      omega
  · intro y y' hy hturn
    obtain ⟨hholds, hdigis, hshift, _⟩ := hy
    unfold castOff at hturn
    split_ifs at hturn with hguard
    cases hturn
    exact ⟨hholds, hdigis, hshift⟩

theorem round_spec (hx : Holds a b x) (hpos : 0 < b) (hb : b ≤ 2 ^ 127) (hdigis : x.digis < 64) :
    let y := loop castOff 65 (loop skipRemainder 65 x)
    y.den ≠ 0 ∧ Holds a b y.divide ∧ x.digis < y.divide.digis := by
  obtain ⟨hskip, hskipDigis, hskipDen, hskipShift, hgreat⟩ := loop_skipRemainder hx
  obtain ⟨hcast, hcastDigis, hcastShift⟩ := loop_castOff hskip hb hgreat
  refine ⟨(den_pos hcast hpos).ne', hcast.divide hpos, ?_⟩
  have hsome : 0 < (loop skipRemainder 65 x).shift := by
    by_contra hnone
    -- without a shift the remainder is less than the divisor and yet has its highest bit set
    have hlt := hskip.rem_lt
    have hle := den_le hskip
    rw [Nat.eq_zero_of_not_pos hnone, Nat.pow_zero, Nat.mul_one] at hlt
    have := hgreat (by omega)
    omega
  dsimp only [Udiv.divide]
  omega

theorem finish_eq (hx : Holds a b x) (hpos : 0 < b) (hend : ¬ (x.digis < 64 ∧ x.rem ≠ 0)) :
    x.finish = a * 2 ^ 64 / b % 2 ^ 128 := by
  obtain ⟨zeros, quo, hden, hresult, hvalue⟩ := hx.exact
  have hdigits := hx.digits
  by_cases hdigis : x.digis < 64
  · have hrem : x.rem = 0 := by
      by_contra hne
      exact hend ⟨hdigis, hne⟩
    rw [hrem, Nat.zero_mul, Nat.add_zero, Nat.pow_add, ← Nat.mul_assoc,
      Nat.mul_right_comm quo] at hvalue
    have hwhole : a * 2 ^ x.digis = quo * b :=
      Nat.eq_of_mul_eq_mul_right (Nat.two_pow_pos x.shift) hvalue
    have hall : a * 2 ^ 64 = quo * 2 ^ (64 - x.digis) * b := by
      have hsplit : 2 ^ 64 = 2 ^ x.digis * 2 ^ (64 - x.digis) := by
        rw [← Nat.pow_add]
        congr 1
        omega
      rw [hsplit, ← Nat.mul_assoc, hwhole, Nat.mul_right_comm]
    rw [finish, if_pos hdigis, hall, Nat.mul_div_cancel _ hpos, shl128, Nat.shiftLeft_eq, hresult,
      Nat.mod_mul_mod]
  · have hshift : x.shift = 0 := by omega
    have hdigis : x.digis = 64 := by omega
    have hlt := hx.rem_lt
    rw [hshift, hdigis, Nat.pow_zero, Nat.mul_one] at hvalue
    rw [hshift, Nat.pow_zero, Nat.mul_one] at hlt
    have hless : x.rem * 2 ^ zeros < b := by
      rw [hden]
      exact Nat.mul_lt_mul_of_pos_right hlt (Nat.two_pow_pos zeros)
    rw [finish, if_neg (by omega), hresult, hvalue, Nat.add_comm, Nat.add_mul_div_right _ _ hpos,
      Nat.div_eq_of_lt hless, Nat.zero_add]

theorem rounds_spec (hpos : 0 < b) (hb : b ≤ 2 ^ 127) {fuel : ℕ} (hx : Holds a b x)
    (hfuel : 64 - x.digis < fuel) :
    (rounds fuel x).map finish = some (a * 2 ^ 64 / b % 2 ^ 128) := by
  induction fuel generalizing x with
  | zero => omega
  | succ fuel ih =>
    rw [rounds]
    by_cases hguard : x.digis < 64 ∧ x.rem ≠ 0
    · obtain ⟨hne, hnext, hmore⟩ := round_spec hx hpos hb hguard.1
      rw [if_pos hguard]
      dsimp only
      rw [if_neg hne]
      exact ih hnext (by omega)
    · rw [if_neg hguard, Option.map_some, finish_eq hx hpos hguard]

theorem loop_skipDivisor (hx : Holds a b x) (hdigis : x.digis = 0) :
    Holds a b (loop skipDivisor 65 x) ∧ (loop skipDivisor 65 x).digis = 0 := by
  apply loop_invariant (P := fun y => Holds a b y ∧ y.digis = 0)
  · intro y y' hy hturn
    unfold skipDivisor at hturn
    split_ifs at hturn with hguard
    cases hturn
    refine ⟨hy.1.shiftDen ?_ (by have := hy.2; omega), hy.2⟩
    rw [← low_bit]
    exact hguard.2
  · intro y y' hy hturn
    unfold skipDivisor at hturn
    split_ifs at hturn with hguard
    cases hturn
    exact hy
  · exact ⟨hx, hdigis⟩

end Udiv

theorem udiv_eq {a b fuel : ℕ} (ha : a < 2 ^ 128) (hpos : 0 < b) (hb : b ≤ 2 ^ 127)
    (hfuel : 65 ≤ fuel) : udiv fuel a b = some (a * 2 ^ 64 / b % 2 ^ 128) := by
  have hstart : Udiv.Holds a b
      { rem := a % b, den := b, result := a / b, digis := 0, shift := 0 } := by
    have hquot : a / b < 2 ^ 128 := (Nat.div_le_self a b).trans_lt ha
    refine ⟨⟨0, a / b, ?_, ?_, ?_⟩, ?_, ?_, Nat.zero_le 64⟩
    · exact (Nat.mul_one b).symm
    · exact (Nat.mod_eq_of_lt hquot).symm
    · dsimp only
      rw [Nat.pow_zero, Nat.mul_one, Nat.mul_one, Nat.mul_one, Nat.div_add_mod']
    · exact (Nat.mod_lt a hpos).trans_eq (Nat.mul_one b).symm
    · exact (Nat.mod_le a b).trans_lt ha
  obtain ⟨hskip, hdigis⟩ := Udiv.loop_skipDivisor hstart rfl
  rw [udiv, if_neg hpos.ne']
  exact Udiv.rounds_spec hpos hb hskip (by omega)

/-- The value of an `int128_t` that is set to `x`. -/
def int128 (x : ℤ) : ℤ := (x + 2 ^ 127) % 2 ^ 128 - 2 ^ 127

def uint128 (x : ℤ) : ℕ := (x % 2 ^ 128).toNat

def int64 (x : ℤ) : ℤ := (x + 2 ^ 63) % 2 ^ 64 - 2 ^ 63

def umulByInvert (a b : ℕ) : ℕ :=
  let ah := a >>> 64
  let bh := b >>> 64
  let al := a &&& hpMaskLo
  let bl := b &&& hpMaskLo
  let hi := mul128 ah bh
  let mid := add128 (mul128 ah bl) (mul128 al bh)
  add128 hi (mid >>> 64)

def mulByInvert (v o : ℤ) : ℤ :=
  let negResult : Bool := v < 0
  let a := uint128 (if negResult then -v else v)
  let result : ℤ := umulByInvert a (uint128 o)
  int128 (if negResult then -result else result)

def ofInteger (v : ℤ) : ℤ := v <<< (64 : ℕ)

def getHigh (v : ℤ) : ℤ := int64 (v >>> (64 : ℕ))

def invert (fuel v : ℕ) : Option ℤ :=
  (udiv fuel (shl128 1 64) v).map fun quo : ℕ =>
    let result := int128 quo
    let tmp := mulByInvert (ofInteger (int64 v)) result
    if getHigh tmp ≠ 1 then result + 1 else result

section Inverse
variable {n r v : ℕ}

theorem ofInteger_eq (n : ℕ) : ofInteger n = (n * 2 ^ 64 : ℕ) := by
  rw [ofInteger, Int.shiftLeft_eq]
  norm_cast

theorem int64_eq (hn : n < 2 ^ 63) : int64 n = n := by
  unfold int64
  omega

theorem int128_eq (hn : n < 2 ^ 127) : int128 n = n := by
  unfold int128
  omega

theorem uint128_eq (hn : n < 2 ^ 128) : uint128 n = n := by
  unfold uint128
  omega

/-- The bits of 2^127 are kept though it is negative as an `int128_t`. -/
theorem uint128_int128 (hn : n ≤ 2 ^ 127) : uint128 (int128 n) = n := by
  unfold uint128 int128
  omega

theorem umulByInvert_eq (hn : n < 2 ^ 63) (hr : r ≤ 2 ^ 127) :
    umulByInvert (n * 2 ^ 64) r = n * r / 2 ^ 64 := by
  have hhigh : n * 2 ^ 64 / 2 ^ 64 = n := Nat.mul_div_cancel n (by decide)
  have hlow : n * 2 ^ 64 % 2 ^ 64 = 0 := Nat.mul_mod_left n (2 ^ 64)
  have hsplit : n * r / 2 ^ 64 = n * (r / 2 ^ 64) + n * (r % 2 ^ 64) / 2 ^ 64 := by
    have hparts : n * r = n * (r % 2 ^ 64) + n * (r / 2 ^ 64) * 2 ^ 64 := by
      calc n * r = n * (r / 2 ^ 64 * 2 ^ 64 + r % 2 ^ 64) := by rw [Nat.div_add_mod']
        _ = _ := by ring
    rw [hparts, Nat.add_mul_div_right _ _ (by decide : 0 < 2 ^ 64), Nat.add_comm]
  have hupper : n * (r / 2 ^ 64) ≤ (2 ^ 63 - 1) * 2 ^ 63 :=
    Nat.mul_le_mul (Nat.le_sub_one_of_lt hn) (by omega)
  have hlower : n * (r % 2 ^ 64) ≤ (2 ^ 63 - 1) * (2 ^ 64 - 1) :=
    Nat.mul_le_mul (Nat.le_sub_one_of_lt hn) (by omega)
  have hmulHigh : mul128 n (r / 2 ^ 64) = n * (r / 2 ^ 64) := Nat.mod_eq_of_lt (by omega)
  have hmulLow : mul128 n (r % 2 ^ 64) = n * (r % 2 ^ 64) := Nat.mod_eq_of_lt (by omega)
  have hmulZero : mul128 0 (r / 2 ^ 64) = 0 := by rw [mul128, Nat.zero_mul, Nat.zero_mod]
  have hmid : add128 (n * (r % 2 ^ 64)) 0 = n * (r % 2 ^ 64) := Nat.mod_eq_of_lt (by omega)
  simp only [umulByInvert, shiftRight_eq, mask_eq, hhigh, hlow, hmulHigh, hmulLow, hmulZero, hmid]
  rw [hsplit]
  exact Nat.mod_eq_of_lt (by omega)

theorem getHigh_mulByInvert {o : ℤ} (hn : n < 2 ^ 63) (ho : uint128 o = r) (hr : r ≤ 2 ^ 127) :
    getHigh (mulByInvert (ofInteger n) o) = (n * r / 2 ^ 128 : ℕ) := by
  have hproduct : n * r ≤ (2 ^ 63 - 1) * 2 ^ 127 :=
    Nat.mul_le_mul (Nat.le_sub_one_of_lt hn) hr
  have hdiv : n * r / 2 ^ 64 / 2 ^ 64 = n * r / 2 ^ 128 := Nat.div_div_eq_div_mul _ _ _
  have hnonneg : ¬ ((n * 2 ^ 64 : ℕ) : ℤ) < 0 := Int.not_lt.mpr (Int.natCast_nonneg _)
  have hresult : mulByInvert (ofInteger n) o = (n * r / 2 ^ 64 : ℕ) := by
    simp only [mulByInvert, ofInteger_eq, ho, decide_eq_false hnonneg, if_neg Bool.false_ne_true,
      uint128_eq (show n * 2 ^ 64 < 2 ^ 128 by omega), umulByInvert_eq hn hr]
    exact int128_eq (by omega)
  have hshift : ((n * r / 2 ^ 64 : ℕ) : ℤ) >>> (64 : ℕ) = (n * r / 2 ^ 128 : ℕ) := by
    rw [← hdiv, ← Nat.shiftRight_eq_div_pow (n * r / 2 ^ 64) 64]
    rfl
  rw [hresult, getHigh, hshift]
  exact int64_eq (by omega)

theorem invert_eq {fuel : ℕ} (hv : 1 < v) (hlt : v < 2 ^ 63) (hfuel : 65 ≤ fuel) :
    ∃ o : ℤ, invert fuel v = some o ∧ uint128 o ≤ 2 ^ 127 ∧ 2 ^ 128 ≤ v * uint128 o ∧
      v * uint128 o < 2 ^ 128 + v := by
  obtain ⟨quo, hdiv⟩ : ∃ quo, quo = 2 ^ 128 / v := ⟨_, rfl⟩
  have hle : quo ≤ 2 ^ 127 := by
    have hhalf : 2 ^ 128 / v ≤ 2 ^ 128 / 2 := Nat.div_le_div_left hv (by decide)
    omega
  have hquo : udiv fuel (shl128 1 64) v = some quo := by
    have hone : shl128 1 64 = 2 ^ 64 := by decide
    have hpow : 2 ^ 64 * 2 ^ 64 = 2 ^ 128 := by decide
    rw [hone, udiv_eq (by decide) (by omega) (by omega) hfuel, hpow, ← hdiv]
    congr 1
    exact Nat.mod_eq_of_lt (by omega)
  have hdivide : v * quo + 2 ^ 128 % v = 2 ^ 128 := by rw [hdiv, Nat.div_add_mod]
  have hrest : 2 ^ 128 % v < v := Nat.mod_lt _ (by omega)
  have hhigh : getHigh (mulByInvert (ofInteger (int64 v)) (int128 quo)) =
      (v * quo / 2 ^ 128 : ℕ) := by
    rw [int64_eq hlt]
    exact getHigh_mulByInvert hlt (uint128_int128 hle) hle
  rw [invert, hquo, Option.map_some]
  dsimp only
  rw [hhigh]
  by_cases hwhole : 2 ^ 128 % v = 0
  · have hone : v * quo / 2 ^ 128 = 1 := by omega
    refine ⟨int128 quo, by rw [hone, if_neg (by simp)], ?_⟩
    rw [uint128_int128 hle]
    exact ⟨hle, by omega, by omega⟩
  · have hzero : v * quo / 2 ^ 128 = 0 := by omega
    -- for two the inverse is exact, so here it is less than 2^127 with one added
    have hthree : 3 ≤ v := by
      by_contra hless
      obtain rfl : v = 2 := by omega
      exact hwhole (by decide)
    have hless : 2 ^ 128 / v ≤ 2 ^ 128 / 3 := Nat.div_le_div_left hthree (by decide)
    have hnext : uint128 (int128 quo + 1) = quo + 1 := by
      rw [int128_eq (by omega)]
      exact uint128_eq (n := quo + 1) (by omega)
    refine ⟨int128 quo + 1, by rw [hzero, if_pos (by simp)], ?_⟩
    rw [hnext, Nat.mul_add, Nat.mul_one]
    exact ⟨by omega, by omega, by omega⟩

/-- Rounding up by less than `v` parts in 2^128 is lost in the integer. -/
theorem div_of_inverse (hv : 0 < v) (hsmall : n * v < 2 ^ 128) (hlow : 2 ^ 128 ≤ v * r)
    (hhigh : v * r < 2 ^ 128 + v) : n * r / 2 ^ 128 = n / v := by
  have hdivide := Nat.div_add_mod n v
  have hrest := Nat.mod_lt n hv
  apply Nat.div_eq_of_lt_le
  · calc n / v * 2 ^ 128 ≤ n / v * (v * r) := Nat.mul_le_mul_left _ hlow
      _ = v * (n / v) * r := by ring
      _ ≤ n * r := Nat.mul_le_mul_right r (Nat.mul_div_le n v)
  · apply Nat.lt_of_mul_lt_mul_left (a := v)
    have hnext : n + 1 ≤ v * (n / v + 1) := by
      rw [Nat.mul_add]
      omega
    calc v * (n * r) = n * (v * r) := by ring
      _ ≤ n * (2 ^ 128 + v) := Nat.mul_le_mul_left n hhigh.le
      _ = n * 2 ^ 128 + n * v := Nat.mul_add n (2 ^ 128) v
      _ < (n + 1) * 2 ^ 128 := by
          rw [Nat.add_mul]
          omega
      _ ≤ v * (n / v + 1) * 2 ^ 128 := Nat.mul_le_mul_right _ hnext
      _ = v * ((n / v + 1) * 2 ^ 128) := Nat.mul_assoc _ _ _

end Inverse

theorem division_exact :
    (∀ a b fuel, a < 2 ^ 128 → 0 < b → b ≤ 2 ^ 127 → 65 ≤ fuel →
      udiv fuel a b = some (a * 2 ^ 64 / b % 2 ^ 128)) ∧
    ∀ v n fuel : ℕ, 1 < v → v < 2 ^ 63 → n < 2 ^ 63 → 65 ≤ fuel →
      ∃ o, invert fuel v = some o ∧
        getHigh (mulByInvert (ofInteger n) o) = (n / v : ℕ) := by
  refine ⟨fun a b fuel ha hpos hb hfuel => udiv_eq ha hpos hb hfuel, ?_⟩
  intro v n fuel hv hlt hn hfuel
  obtain ⟨o, ho, hle, hlow, hhigh⟩ := invert_eq hv hlt hfuel
  have hsmall : n * v ≤ 2 ^ 63 * 2 ^ 63 := Nat.mul_le_mul hn.le hlt.le
  refine ⟨o, ho, ?_⟩
  rw [getHigh_mulByInvert hn rfl hle, div_of_inverse (by omega) (by omega) hlow hhigh]

/-- One divided by three, and 60000 milliseconds in seconds. -/
theorem division_exact_third :
    udiv 65 (2 ^ 64) (3 * 2 ^ 64) = some (2 ^ 64 * 2 ^ 64 / (3 * 2 ^ 64) % 2 ^ 128) ∧
    ∃ o, invert 65 1000 = some o ∧
      getHigh (mulByInvert (ofInteger (60000 : ℕ)) o) = (60000 / 1000 : ℕ) :=
  ⟨division_exact.1 _ _ 65 (by decide) (by decide) (by decide) (by decide),
    division_exact.2 1000 60000 65 (by decide) (by decide) (by decide) (by decide)⟩

end NetGymSim.Core.Int64x64

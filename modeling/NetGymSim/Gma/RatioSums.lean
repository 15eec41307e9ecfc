import NetGymSim.Gma.ViolationRatio
import Mathlib.Algebra.BigOperators.Ring.Finset

/-!
# When the new ratios are ratios

The new ratios are not negative and sum to one, without a division by zero and without a fatal
error, as long as the default link is up and measured wherever traffic is sent to it. With one
measurement for each link the current bandwidth is among those of its history, so that the scaler
of the medium congestion is never negative.
-/

namespace NetGymSim.Gma
open NetGymSim.Lib

namespace ViolationRatio

def seconds (duration : ℕ) : ℚ := duration / 1000000000

def IsRatio (ratio : List ℚ) : Prop := ratio = [] ∨ (∀ s ∈ ratio, 0 ≤ s) ∧ ratio.sum = 1

section Condition
variable (linkState : LinkState) (links : List LinkCount)

def DefaultReady : Prop :=
  linkState.defaultLinkCid ∈ links.map LinkCount.cid ∧ linkState.isLinkUp linkState.defaultLinkCid

def dataLinks : List LinkCount := (upLinks linkState links).filter fun r => 0 < r.total

structure RatioCondition (duration splittingBurst : ℕ) : Prop where
  duration : 0 < duration
  /-- Without traffic, or without congestion and with one link in use, all goes to the default
  link. -/
  steer : sumPkt linkState links = 0 ∨
      sumCongested linkState links = 0 ∧ (dataLinks linkState links).length = 1 →
    DefaultReady linkState links
  /-- Without congestion and with several links in use, packets for the default link go to the
  first one when the default link is not ready. -/
  relocate : sumPkt linkState links ≠ 0 → sumCongested linkState links = 0 →
    (dataLinks linkState links).length ≠ 1 → 0 < splittingBurst ∧
      (splittingBurst ≤ sumPkt linkState links → DefaultReady linkState links ∨
        ∃ r, links[0]? = some r ∧ up linkState r)
  /-- With congestion no link has more violations than packets. -/
  counts : sumPkt linkState links ≠ 0 → sumCongested linkState links ≠ 0 →
    ∀ r ∈ upLinks linkState links, r.violations ≤ r.total

end Condition

section Sums
variable {α : Type} {l : List α}

theorem sum_affine (x y : α → ℚ) (a s : ℚ) :
    (l.map fun r => (x r + y r * a) / s).sum = ((l.map x).sum + (l.map y).sum * a) / s := by
  induction l with
  | nil => simp
  | cons r l ih =>
    simp only [List.map_cons, List.sum_cons, ih]
    ring

theorem sum_cast (x : α → ℕ) : (((l.map x).sum : ℕ) : ℚ) = (l.map fun r => (x r : ℚ)).sum := by
  rw [Nat.cast_list_sum, List.map_map]
  rfl

theorem le_max?_getD {l : List ℚ} {x : ℚ} (h : x ∈ l) (d : ℚ) : x ≤ l.max?.getD d := by
  cases hmax : l.max? with
  | none =>
    rw [List.max?_eq_none_iff.mp hmax] at h
    cases h
  | some m => exact (List.max?_le_iff hmax).mp le_rfl x h

end Sums

section History
variable {linkState : LinkState} {links : List LinkCount} {durationS : ℚ}
  {history history' : BwHistory} {r : LinkCount}

theorem divide_eq_ok {a b c : ℚ} : divide a b = .ok c ↔ b ≠ 0 ∧ a / b = c := by
  unfold divide
  split_ifs with h
  · simp [h]
  · simp [h]

theorem divide_pos (a : ℚ) {b : ℚ} (h : 0 < b) : divide a b = .ok (a / b) :=
  divide_eq_ok.mpr ⟨h.ne', rfl⟩

theorem duration_ne (h : links.foldlM (extendHistory linkState durationS) history = .ok history')
    (hr : r ∈ links) (hup : up linkState r) : durationS ≠ 0 := by
  obtain ⟨b, rest, b', -, hturn⟩ := foldlM_turn (P := fun _ _ => True)
    (fun _ _ _ _ _ _ => trivial) trivial h hr
  simp only [extendHistory, bandwidth, if_pos hup, bind_eq_ok, divide_eq_ok] at hturn
  obtain ⟨_, ⟨hne, -⟩, -⟩ := hturn
  exact hne

theorem extendHistory_other (h : links.foldlM (extendHistory linkState durationS) history =
    .ok history') {cid : Cid} (hcid : cid ∉ links.map LinkCount.cid) :
    history' cid = history cid := by
  induction links generalizing history with
  | nil =>
    cases h
    rfl
  | cons c links ih =>
    rw [List.map_cons, List.mem_cons, not_or] at hcid
    simp only [List.foldlM_cons, bind_eq_ok, extendHistory] at h
    obtain ⟨_, ⟨bw, -, hnext⟩, h⟩ := h
    obtain rfl := pure_eq_ok.mp hnext
    rw [ih h hcid.2, Function.update_of_ne hcid.1]

theorem extendHistory_last (h : links.foldlM (extendHistory linkState durationS) history =
    .ok history') (hn : (links.map LinkCount.cid).Nodup) (hr : r ∈ links) (hup : up linkState r) :
    history' r.cid = history r.cid ++ [(r.total / durationS, r.violations)] := by
  induction links generalizing history with
  | nil => cases hr
  | cons c links ih =>
    obtain ⟨hc, hn⟩ := List.nodup_cons.mp hn
    simp only [List.foldlM_cons, bind_eq_ok, extendHistory] at h
    obtain ⟨_, ⟨bw, hbw, hnext⟩, h⟩ := h
    obtain rfl := pure_eq_ok.mp hnext
    rcases List.mem_cons.mp hr with rfl | hr
    · rw [bandwidth, if_pos hup, divide_eq_ok] at hbw
      rw [extendHistory_other h hc, Function.update_self, hbw.2]
    · have hne : r.cid ≠ c.cid := fun heq => hc (heq ▸ List.mem_map_of_mem hr)
      rw [ih h hn hr, Function.update_of_ne hne]

theorem extendHistory_total (h : durationS ≠ 0) :
    ∃ history', links.foldlM (extendHistory linkState durationS) history = .ok history' := by
  refine foldlM_total (P := fun _ _ => True) (fun history r _ _ => ?_) trivial
  have hbw : ∃ bw, bandwidth linkState durationS r = .ok bw := by
    unfold bandwidth
    split_ifs
    · exact ⟨_, divide_eq_ok.mpr ⟨h, rfl⟩⟩
    · exact ⟨0, rfl⟩
  obtain ⟨bw, hbw⟩ := hbw
  exact ⟨_, by rw [extendHistory, bind_eq_ok]; exact ⟨bw, hbw, rfl⟩, trivial⟩

theorem le_maxBw (h : links.foldlM (extendHistory linkState durationS) history = .ok history')
    (hn : (links.map LinkCount.cid).Nodup) (hr : r ∈ links) (hup : up linkState r) :
    r.total / durationS ≤ maxBw (trimHistory history') r.cid := by
  apply le_max?_getD
  have hlast := extendHistory_last h hn hr hup
  have hmem : (r.total / durationS, r.violations) ∈ trimHistory history' r.cid := by
    rw [trimHistory, hlast, List.length_append, List.length_singleton,
      List.drop_append_of_le_length (by simp only [bwHistSize]; omega)]
    exact List.mem_append_right _ (List.mem_singleton_self _)
  exact List.mem_map_of_mem (f := Prod.fst) hmem

end History

section Links
variable {linkState : LinkState} {links : List LinkCount} {r : LinkCount}

theorem mem_upLinks : r ∈ upLinks linkState links ↔ r ∈ links ∧ up linkState r = true := by
  rw [upLinks, List.mem_filter]

theorem mem_clearLinks :
    r ∈ clearLinks linkState links ↔ r ∈ upLinks linkState links ∧ r.violations = 0 := by
  rw [clearLinks, List.mem_filter, decide_eq_true_eq]

def congestedLinks (linkState : LinkState) (links : List LinkCount) : List LinkCount :=
  (upLinks linkState links).filter fun r => ¬ r.violations = 0

theorem sum_filter_add {α : Type} (p : α → Prop) [DecidablePred p] (f : α → ℚ) (l : List α) :
    ((l.filter p).map f).sum + ((l.filter fun r => ¬ p r).map f).sum = (l.map f).sum := by
  rw [← List.sum_map_ite]
  simp only [ite_self]

theorem sum_up (f : LinkCount → ℚ) :
    (links.map fun r => if up linkState r then f r else 0).sum =
      ((upLinks linkState links).map f).sum := by
  rw [List.sum_map_ite, List.map_const', List.sum_replicate, nsmul_zero, add_zero]
  simp only [upLinks, Bool.decide_eq_true]

theorem sum_clear_add (f : LinkCount → ℚ) :
    ((clearLinks linkState links).map f).sum + ((congestedLinks linkState links).map f).sum =
      ((upLinks linkState links).map f).sum := sum_filter_add _ _ _

end Links

section Default
variable {linkState : LinkState} {links : List LinkCount} {r : LinkCount}

theorem isDefault_iff : isDefault linkState r = true ↔ r.cid = linkState.defaultLinkCid :=
  decide_eq_true_iff

theorem sum_isDefault : (links.map fun r => if isDefault linkState r then (1 : ℚ) else 0).sum =
    ((links.map LinkCount.cid).count linkState.defaultLinkCid : ℕ) := by
  induction links with
  | nil => rfl
  | cons c links ih =>
    rw [List.map_cons, List.sum_cons, ih, List.map_cons, List.count_cons]
    by_cases hc : c.cid = linkState.defaultLinkCid
    · rw [if_pos (isDefault_iff.mpr hc), if_pos (beq_iff_eq.mpr hc)]
      push_cast
      ring
    · rw [if_neg (isDefault_iff.not.mpr hc), if_neg (beq_iff_eq.not.mpr hc)]
      push_cast
      ring

theorem isRatio_default (hn : (links.map LinkCount.cid).Nodup)
    (h : linkState.defaultLinkCid ∈ links.map LinkCount.cid) :
    IsRatio (links.map fun r => if isDefault linkState r then (1 : ℚ) else 0) := by
  right
  constructor
  · intro s hs
    obtain ⟨r, -, rfl⟩ := List.mem_map.mp hs
    split_ifs <;> norm_num
  · rw [sum_isDefault, List.count_eq_one_of_mem hn h]
    norm_num

theorem DefaultReady.up (h : DefaultReady linkState links) (hr : isDefault linkState r = true) :
    up linkState r = true := by
  rw [ViolationRatio.up, isDefault_iff.mp hr]
  exact h.2

theorem not_isRatio_zeros {f : LinkCount → ℚ} (hne : links ≠ []) (h : ∀ r ∈ links, f r = 0) :
    ¬ IsRatio (links.map f) := by
  intro hratio
  rcases hratio with hnil | ⟨-, hsum⟩
  · exact hne (List.map_eq_nil_iff.mp hnil)
  · have hzero : (links.map f).sum = 0 := by
      refine List.sum_eq_zero fun s hs => ?_
      obtain ⟨r, hr, rfl⟩ := List.mem_map.mp hs
      exact h r hr
    rw [hzero] at hsum
    exact zero_ne_one hsum

theorem noTraffic_iff (hn : (links.map LinkCount.cid).Nodup) (hne : links ≠ []) :
    (∃ ratio, links.mapM (noTraffic linkState) = .ok ratio ∧ IsRatio ratio) ↔
      DefaultReady linkState links := by
  constructor
  · intro h
    obtain ⟨ratio, hok, hratio⟩ := h
    have hcid : linkState.defaultLinkCid ∈ links.map LinkCount.cid := by
      by_contra hcid
      have hother : ∀ r ∈ links, noTraffic linkState r = .ok 0 := by
        intro r hr
        have hdef : ¬ isDefault linkState r = true := fun hdef =>
          hcid (isDefault_iff.mp hdef ▸ List.mem_map_of_mem hr)
        rw [noTraffic, if_neg hdef]
      rw [mapM_eq_map hother] at hok
      cases hok
      exact not_isRatio_zeros hne (fun _ _ => rfl) hratio
    obtain ⟨r, hr, hrcid⟩ := List.mem_map.mp hcid
    obtain ⟨s, hs⟩ := mapM_ok hok hr
    refine ⟨hcid, ?_⟩
    rw [noTraffic, if_pos (isDefault_iff.mpr hrcid)] at hs
    split_ifs at hs with hup
    rw [ViolationRatio.up, hrcid] at hup
    exact hup
  · intro h
    refine ⟨_, mapM_eq_map fun r _ => ?_, isRatio_default hn h.1⟩
    unfold noTraffic
    split_ifs with hdef hup
    · rfl
    · exact absurd (h.up hdef) hup
    · rfl

theorem oneLink_iff (hn : (links.map LinkCount.cid).Nodup) (hne : links ≠ []) :
    IsRatio (links.map (oneLink linkState)) ↔ DefaultReady linkState links := by
  constructor
  · intro h
    by_contra hready
    refine not_isRatio_zeros hne (fun r hr => if_neg fun hdef => hready ?_) h
    have hcid := isDefault_iff.mp hdef.2
    exact ⟨hcid ▸ List.mem_map_of_mem hr, hcid ▸ hdef.1⟩
  · intro h
    have heq : links.map (oneLink linkState) =
        links.map fun r => if isDefault linkState r then (1 : ℚ) else 0 := by
      refine List.map_congr_left fun r _ => ?_
      exact if_congr (and_iff_right_of_imp h.up) rfl rfl
    rw [heq]
    exact isRatio_default hn h.1

end Default
section Congestion
variable {linkState : LinkState} {links : List LinkCount} {history : BwHistory} {durationS : ℚ}
  {r : LinkCount}

theorem mem_congestedLinks :
    r ∈ congestedLinks linkState links ↔ r ∈ upLinks linkState links ∧ 0 < r.violations := by
  rw [congestedLinks, List.mem_filter, decide_eq_true_eq, Nat.pos_iff_ne_zero]

theorem sumPkt_cast : ((sumPkt linkState links : ℕ) : ℚ) =
    ((upLinks linkState links).map fun r => (r.total : ℚ)).sum := sum_cast _

theorem sumPktNoCongestion_cast : ((sumPktNoCongestion linkState links : ℕ) : ℚ) =
    ((clearLinks linkState links).map fun r => (r.total : ℚ)).sum := sum_cast _

theorem sumCongested_cast : ((sumCongested linkState links : ℕ) : ℚ) =
    ((congestedLinks linkState links).map fun r => (r.violations : ℚ)).sum := by
  have hclear : ((clearLinks linkState links).map fun r => (r.violations : ℚ)).sum = 0 := by
    refine List.sum_eq_zero fun x hx => ?_
    obtain ⟨r, hr, rfl⟩ := List.mem_map.mp hx
    rw [(mem_clearLinks.mp hr).2, Nat.cast_zero]
  rw [sumCongested, sum_cast, ← sum_clear_add, hclear, zero_add]

theorem totals_add : ((clearLinks linkState links).map fun r => (r.total : ℚ)).sum +
    ((congestedLinks linkState links).map fun r => (r.total : ℚ)).sum = sumPkt linkState links := by
  rw [sum_clear_add, sumPkt_cast]

theorem scaler_nonneg (hd : 0 < durationS)
    (hbw : ∀ r ∈ upLinks linkState links, r.total / durationS ≤ maxBw history r.cid) :
    0 ≤ (sumMaxBwKequalZero linkState links history * durationS -
      sumPktNoCongestion linkState links) / sumCongested linkState links := by
  refine div_nonneg (sub_nonneg.mpr ?_) (Nat.cast_nonneg _)
  rw [sumPktNoCongestion_cast, sumMaxBwKequalZero, ← List.sum_map_mul_right]
  refine List.sum_le_sum fun r hr => ?_
  exact (div_le_iff₀ hd).mp (hbw r (mem_clearLinks.mp hr).1)

theorem newScaler_spec (hd : 0 < durationS) (hk : sumCongested linkState links ≠ 0)
    (hbw : ∀ r ∈ upLinks linkState links, r.total / durationS ≤ maxBw history r.cid) :
    ∃ a, newScaler linkState links durationS history = .ok a ∧ 0 ≤ a ∧ a ≤ 1 := by
  have hk' : (sumCongested linkState links : ℚ) ≠ 0 := Nat.cast_ne_zero.mpr hk
  have h0 := scaler_nonneg hd hbw
  unfold newScaler
  split_ifs
  · refine ⟨min congestionScalerMax (max congestionScalerMin
      ((sumMaxBwKequalZero linkState links history * durationS -
        sumPktNoCongestion linkState links) / sumCongested linkState links)), ?_, ?_, ?_⟩
    · refine bind_eq_ok.mpr ⟨_, divide_eq_ok.mpr ⟨hk', rfl⟩, ?_⟩
      rw [if_neg (by linarith)]
      rfl
    · exact le_min (by norm_num [congestionScalerMax])
        (le_max_of_le_left (by norm_num [congestionScalerMin]))
    · exact (min_le_left _ _).trans (by norm_num [congestionScalerMax])
  · exact ⟨_, rfl, by norm_num [congestionScaler], by norm_num [congestionScaler]⟩

def clearShare (linkState : LinkState) (links : List LinkCount) (history : BwHistory) (a : ℚ)
    (r : LinkCount) : ℚ :=
  if allLinkBwAvailable linkState links history then
    (sumPktNoCongestion linkState links + sumCongested linkState links * a) *
      maxBw history r.cid / (sumMaxBwKequalZero linkState links history * sumPkt linkState links)
  else
    (r.total + sumCongested linkState links * a / (clearLinks linkState links).length) /
      sumPkt linkState links

def congestedShare (linkState : LinkState) (links : List LinkCount) (a : ℚ) (r : LinkCount) : ℚ :=
  (r.total - r.violations * a) / sumPkt linkState links

theorem sumMaxBw_pos (havail : allLinkBwAvailable linkState links history = true)
    (hclear : 0 < (clearLinks linkState links).length) :
    0 < sumMaxBwKequalZero linkState links history := by
  refine List.sum_pos _ (fun x hx => ?_) ?_
  · obtain ⟨r, hr, rfl⟩ := List.mem_map.mp hx
    have := of_decide_eq_true (List.all_eq_true.mp havail r (mem_clearLinks.mp hr).1)
    linarith [not_lt.mp this.2.2]
  · rw [Ne, List.map_eq_nil_iff]
    exact List.ne_nil_of_length_pos hclear

theorem mediumCongestion_eq {a : ℚ} (ha : newScaler linkState links durationS history = .ok a)
    (hn : sumPkt linkState links ≠ 0) (hclear : 0 < (clearLinks linkState links).length)
    (hcounts : ∀ r ∈ upLinks linkState links, r.violations ≤ r.total) (hr : r ∈ links) :
    mediumCongestion linkState links durationS history r = .ok (if up linkState r then
      (if r.violations = 0 then clearShare linkState links history a r
        else congestedShare linkState links a r) else 0) := by
  have hn' : (0 : ℚ) < sumPkt linkState links := by exact_mod_cast Nat.pos_of_ne_zero hn
  have hlen : (0 : ℚ) < (clearLinks linkState links).length := by exact_mod_cast hclear
  unfold mediumCongestion
  by_cases hup : up linkState r
  · have hgood : ¬ (r.total < r.violations ∨ sumPkt linkState links = 0) :=
      not_or.mpr ⟨(hcounts r (mem_upLinks.mpr ⟨hr, hup⟩)).not_gt, hn⟩
    simp only [if_pos hup, if_neg hgood, ha]
    by_cases hk : r.violations = 0
    · have hk' : ¬ r.violations > 0 := by omega
      rw [if_pos hk]
      simp only [bind, Except.bind, if_neg hk', enableBwEstimate, true_and]
      unfold clearShare
      by_cases havail : allLinkBwAvailable linkState links history
      · have hbw := sumMaxBw_pos havail hclear
        simp only [if_pos havail, if_pos hbw]
        exact divide_pos _ (mul_pos hbw hn')
      · simp only [if_neg havail, divide_pos _ hlen]
        exact divide_pos _ hn'
    · rw [if_neg hk]
      simp only [bind, Except.bind, if_pos (Nat.pos_of_ne_zero hk)]
      exact divide_pos _ hn'
  · simp only [if_neg hup]
    rfl

theorem sum_congestedShare (a : ℚ) :
    ((congestedLinks linkState links).map (congestedShare linkState links a)).sum =
      (((congestedLinks linkState links).map fun r => (r.total : ℚ)).sum -
        sumCongested linkState links * a) / sumPkt linkState links := by
  have h := sum_affine (l := congestedLinks linkState links) (fun r => (r.total : ℚ))
    (fun r => (r.violations : ℚ)) (-a) (sumPkt linkState links)
  rw [← sumCongested_cast] at h
  simp only [mul_neg, ← sub_eq_add_neg] at h
  exact h

theorem sum_clearShare (a : ℚ) (hclear : 0 < (clearLinks linkState links).length) :
    ((clearLinks linkState links).map (clearShare linkState links history a)).sum =
      (((clearLinks linkState links).map fun r => (r.total : ℚ)).sum +
        sumCongested linkState links * a) / sumPkt linkState links := by
  have hlen : ((clearLinks linkState links).length : ℚ) ≠ 0 := by
    exact_mod_cast hclear.ne'
  by_cases havail : allLinkBwAvailable linkState links history
  · have hbw := (sumMaxBw_pos havail hclear).ne'
    have heq : clearShare linkState links history a = fun r =>
        (sumPktNoCongestion linkState links + sumCongested linkState links * a) /
          (sumMaxBwKequalZero linkState links history * sumPkt linkState links) *
            maxBw history r.cid := by
      funext r
      rw [clearShare, if_pos havail, mul_div_right_comm]
    rw [heq, List.sum_map_mul_left, ← sumMaxBwKequalZero, ← sumPktNoCongestion_cast]
    rw [div_mul_eq_mul_div, mul_comm (sumMaxBwKequalZero _ _ _), mul_div_mul_right _ _ hbw]
  · have h := sum_affine (l := clearLinks linkState links) (fun r => (r.total : ℚ)) (fun _ => 1)
      (sumCongested linkState links * a / (clearLinks linkState links).length)
      (sumPkt linkState links)
    have heq : clearShare linkState links history a = fun r =>
        ((r.total : ℚ) + 1 * (sumCongested linkState links * a /
          (clearLinks linkState links).length)) / sumPkt linkState links := by
      funext r
      rw [clearShare, if_neg havail, one_mul]
    rw [heq, h, List.map_const', List.sum_replicate, nsmul_one, mul_div_cancel₀ _ hlen]

theorem clearShare_nonneg {a : ℚ} (h0 : 0 ≤ a) (hclear : 0 < (clearLinks linkState links).length)
    (hr : r ∈ upLinks linkState links) : 0 ≤ clearShare linkState links history a r := by
  have hmoved : 0 ≤ (sumCongested linkState links : ℚ) * a := mul_nonneg (Nat.cast_nonneg _) h0
  unfold clearShare
  split_ifs with havail
  · have hbw := sumMaxBw_pos havail hclear
    have hmax := of_decide_eq_true (List.all_eq_true.mp havail r hr)
    have hpos : 0 ≤ maxBw history r.cid := by linarith [not_lt.mp hmax.2.2]
    positivity
  · positivity

theorem congestedShare_nonneg {a : ℚ} (h1 : a ≤ 1) (hle : r.violations ≤ r.total) :
    0 ≤ congestedShare linkState links a r := by
  have hle' : (r.violations : ℚ) ≤ r.total := by exact_mod_cast hle
  have hmul : (r.violations : ℚ) * a ≤ r.violations :=
    mul_le_of_le_one_right (Nat.cast_nonneg _) h1
  exact div_nonneg (by linarith) (Nat.cast_nonneg _)

theorem mediumCongestion_isRatio (hd : 0 < durationS) (hn : sumPkt linkState links ≠ 0)
    (hk : sumCongested linkState links ≠ 0) (hclear : 0 < (clearLinks linkState links).length)
    (hbw : ∀ r ∈ upLinks linkState links, r.total / durationS ≤ maxBw history r.cid)
    (hcounts : ∀ r ∈ upLinks linkState links, r.violations ≤ r.total) :
    ∃ ratio, links.mapM (mediumCongestion linkState links durationS history) = .ok ratio ∧
      IsRatio ratio := by
  obtain ⟨a, ha, h0, h1⟩ := newScaler_spec hd hk hbw
  have hn' : (sumPkt linkState links : ℚ) ≠ 0 := Nat.cast_ne_zero.mpr hn
  refine ⟨_, mapM_eq_map fun r hr => mediumCongestion_eq ha hn hclear hcounts hr, .inr ⟨?_, ?_⟩⟩
  · intro s hs
    obtain ⟨r, hr, rfl⟩ := List.mem_map.mp hs
    split_ifs with hup
    · exact clearShare_nonneg h0 hclear (mem_upLinks.mpr ⟨hr, hup⟩)
    · exact congestedShare_nonneg h1 (hcounts r (mem_upLinks.mpr ⟨hr, hup⟩))
    · exact le_rfl
  · rw [sum_up, ← sum_clear_add]
    have hclr : (clearLinks linkState links).map (fun r => if r.violations = 0 then
          clearShare linkState links history a r else congestedShare linkState links a r) =
        (clearLinks linkState links).map (clearShare linkState links history a) :=
      List.map_congr_left fun r hr => if_pos (mem_clearLinks.mp hr).2
    have hcon : (congestedLinks linkState links).map (fun r => if r.violations = 0 then
          clearShare linkState links history a r else congestedShare linkState links a r) =
        (congestedLinks linkState links).map (congestedShare linkState links a) :=
      List.map_congr_left fun r hr => if_neg (mem_congestedLinks.mp hr).2.ne'
    rw [hclr, hcon, sum_clearShare a hclear, sum_congestedShare, ← add_div, add_add_sub_cancel,
      totals_add, div_self hn']

theorem heavyCongestion_isRatio (hn : sumPkt linkState links ≠ 0)
    (hcounts : ∀ r ∈ upLinks linkState links, r.violations ≤ r.total) :
    ∃ ratio, links.mapM (heavyCongestion linkState links) = .ok ratio ∧ IsRatio ratio := by
  have hn' : (0 : ℚ) < sumPkt linkState links := by exact_mod_cast Nat.pos_of_ne_zero hn
  have hok : ∀ r ∈ links, heavyCongestion linkState links r = .ok (if up linkState r then
      (r.total : ℚ) / sumPkt linkState links else 0) := by
    intro r hr
    unfold heavyCongestion
    simp only [mul_zero, sub_zero]
    by_cases hup : up linkState r
    · have hgood : ¬ (r.total < r.violations ∨ (sumPkt linkState links : ℚ) = 0) :=
        not_or.mpr ⟨(hcounts r (mem_upLinks.mpr ⟨hr, hup⟩)).not_gt, hn'.ne'⟩
      simp only [if_pos hup, if_neg hgood]
      exact divide_pos _ hn'
    · simp only [if_neg hup]
  refine ⟨_, mapM_eq_map hok, .inr ⟨?_, ?_⟩⟩
  · intro s hs
    obtain ⟨r, -, rfl⟩ := List.mem_map.mp hs
    split_ifs
    · positivity
    · exact le_rfl
  · rw [sum_up]
    simp only [div_eq_mul_inv]
    rw [List.sum_map_mul_right, ← sumPkt_cast, mul_inv_cancel₀ hn'.ne']

theorem counts_of_medium {ratio : List ℚ}
    (h : links.mapM (mediumCongestion linkState links durationS history) = .ok ratio)
    (hr : r ∈ upLinks linkState links) : r.violations ≤ r.total := by
  obtain ⟨hmem, hup⟩ := mem_upLinks.mp hr
  obtain ⟨s, hs⟩ := mapM_ok h hmem
  by_contra hlt
  unfold mediumCongestion at hs
  simp only [if_pos hup, if_pos (Or.inl (not_le.mp hlt))] at hs
  cases hs

theorem counts_of_heavy {ratio : List ℚ}
    (h : links.mapM (heavyCongestion linkState links) = .ok ratio)
    (hr : r ∈ upLinks linkState links) : r.violations ≤ r.total := by
  obtain ⟨hmem, hup⟩ := mem_upLinks.mp hr
  obtain ⟨s, hs⟩ := mapM_ok h hmem
  by_contra hlt
  unfold heavyCongestion at hs
  simp only [if_pos hup, if_pos (Or.inl (not_le.mp hlt))] at hs
  cases hs

end Congestion
section Relocation
variable {linkState : LinkState} {links : List LinkCount} {r : LinkCount} {v : DataScan}

def otherData (linkState : LinkState) (r : LinkCount) : Bool :=
  up linkState r ∧ ¬ isDefault linkState r ∧ 0 < r.total

/-- What the scan knows of the links it has passed. The last other link with data has as many of
them before it as were counted. -/
structure Scanned (linkState : LinkState) (links : List LinkCount) (v : DataScan) : Prop where
  linkWithData : v.linkWithData = (dataLinks linkState links).length
  defIndex : (∃ r, links[v.defIndex]? = some r ∧ up linkState r ∧ isDefault linkState r) ∨
    v.defIndex = 0 ∧ ∀ r ∈ links, up linkState r → ¬ isDefault linkState r
  nDefIndex : (∃ r, links[v.nDefIndex]? = some r ∧ otherData linkState r ∧ r.total = v.nDefN) ∨
    v.nDefN = 0 ∧ ∀ r ∈ links, ¬ otherData linkState r
  spread : (links.filter (otherData linkState)).length ≤ v.nDefIndex + 1

theorem getElem?_concat {α : Type} {l : List α} {i : ℕ} {a b : α} (h : l[i]? = some a) :
    (l ++ [b])[i]? = some a := by
  rw [List.getElem?_append_left (List.getElem?_eq_some_iff.mp h).1]
  exact h

theorem otherData_iff : otherData linkState r = true ↔
    up linkState r = true ∧ ¬ isDefault linkState r = true ∧ 0 < r.total := by
  rw [otherData, decide_eq_true_eq]

theorem dataLinks_concat : (dataLinks linkState (links ++ [r])).length =
    (dataLinks linkState links).length + if up linkState r ∧ 0 < r.total then 1 else 0 := by
  by_cases hup : up linkState r <;> by_cases hpos : 0 < r.total <;>
    simp [dataLinks, upLinks, List.filter_append, hup, hpos]

theorem otherData_concat : ((links ++ [r]).filter (otherData linkState)).length =
    (links.filter (otherData linkState)).length + if otherData linkState r then 1 else 0 := by
  by_cases h : otherData linkState r <;> simp [List.filter_append, h]

theorem Scanned.turn (h : Scanned linkState links v) (r : LinkCount) :
    Scanned linkState (links ++ [r]) (v.turn linkState (r, links.length)) := by
  have hlast : (links ++ [r])[links.length]? = some r := List.getElem?_concat_length
  have hle : (links.filter (otherData linkState)).length ≤ links.length := List.length_filter_le _ _
  have hforall : ∀ {P : LinkCount → Prop}, (∀ c ∈ links, P c) → P r → ∀ c ∈ links ++ [r], P c := by
    intro P hlinks hr c hc
    rcases List.mem_append.mp hc with hc | hc
    · exact hlinks c hc
    · exact List.mem_singleton.mp hc ▸ hr
  -- what stays known when the new link is of no interest to an index
  have hdefault : (up linkState r = true → ¬ isDefault linkState r = true) →
      (∃ c, (links ++ [r])[v.defIndex]? = some c ∧ up linkState c ∧ isDefault linkState c) ∨
        v.defIndex = 0 ∧ ∀ c ∈ links ++ [r], up linkState c → ¬ isDefault linkState c := by
    intro hr
    rcases h.defIndex with ⟨c, hc, hup⟩ | ⟨hzero, hnone⟩
    · exact .inl ⟨c, getElem?_concat hc, hup⟩
    · exact .inr ⟨hzero, hforall hnone hr⟩
  have hother : ¬ otherData linkState r = true →
      (∃ c, (links ++ [r])[v.nDefIndex]? = some c ∧ otherData linkState c ∧ c.total = v.nDefN) ∨
        v.nDefN = 0 ∧ ∀ c ∈ links ++ [r], ¬ otherData linkState c := by
    intro hr
    rcases h.nDefIndex with ⟨c, hc, hup⟩ | ⟨hzero, hnone⟩
    · exact .inl ⟨c, getElem?_concat hc, hup⟩
    · exact .inr ⟨hzero, hforall hnone hr⟩
  have hspread : ¬ otherData linkState r = true →
      ((links ++ [r]).filter (otherData linkState)).length ≤ v.nDefIndex + 1 := by
    intro hr
    rw [otherData_concat, if_neg hr, add_zero]
    exact h.spread
  have hdata := h.linkWithData
  unfold DataScan.turn
  by_cases hup : up linkState r
  · by_cases hpos : 0 < r.total
    · have hcount : v.linkWithData + 1 = (dataLinks linkState (links ++ [r])).length := by
        rw [dataLinks_concat, if_pos ⟨hup, hpos⟩, hdata]
      by_cases hdef : isDefault linkState r
      · have hnot : ¬ otherData linkState r = true := fun ho => (otherData_iff.mp ho).2.1 hdef
        simp only [if_pos hup, if_pos hpos, if_pos hdef]
        exact ⟨hcount, .inl ⟨r, hlast, hup, hdef⟩, hother hnot, hspread hnot⟩
      · have hr : otherData linkState r = true := otherData_iff.mpr ⟨hup, hdef, hpos⟩
        simp only [if_pos hup, if_pos hpos, if_neg hdef]
        refine ⟨hcount, hdefault fun _ => hdef, .inl ⟨r, hlast, hr, rfl⟩, ?_⟩
        rw [otherData_concat, if_pos hr]
        exact Nat.succ_le_succ hle
    · have hcount : v.linkWithData = (dataLinks linkState (links ++ [r])).length := by
        rw [dataLinks_concat, if_neg fun h => hpos h.2, hdata, add_zero]
      have hnot : ¬ otherData linkState r = true := fun ho => hpos (otherData_iff.mp ho).2.2
      by_cases hdef : isDefault linkState r
      · simp only [if_pos hup, if_neg hpos, if_pos hdef]
        exact ⟨hcount, .inl ⟨r, hlast, hup, hdef⟩, hother hnot, hspread hnot⟩
      · simp only [if_pos hup, if_neg hpos, if_neg hdef]
        exact ⟨hcount, hdefault fun _ => hdef, hother hnot, hspread hnot⟩
  · have hcount : v.linkWithData = (dataLinks linkState (links ++ [r])).length := by
      rw [dataLinks_concat, if_neg fun h => hup h.1, hdata, add_zero]
    have hnot : ¬ otherData linkState r = true := fun ho => hup (otherData_iff.mp ho).1
    rw [if_neg hup]
    exact ⟨hcount, hdefault fun h => absurd h hup, hother hnot, hspread hnot⟩

theorem dataScan_scanned : Scanned linkState links (dataScan linkState links) := by
  unfold dataScan
  induction links using List.reverseRecOn with
  | nil => exact ⟨rfl, .inr ⟨rfl, by simp⟩, .inr ⟨rfl, by simp⟩, by simp⟩
  | append_singleton links r ih =>
    rw [List.zipIdx_append, List.foldl_append]
    simp only [List.zipIdx_singleton, zero_add, List.foldl_cons, List.foldl_nil]
    exact ih.turn r

theorem sum_at (f : LinkCount → ℚ) (links : List LinkCount) (j : ℕ) :
    (links.zipIdx.map fun p => if p.2 = j then f p.1 else 0).sum = (links[j]?.map f).getD 0 := by
  induction links using List.reverseRecOn with
  | nil => rfl
  | append_singleton links r ih =>
    rw [List.zipIdx_append, List.map_append, List.sum_append, ih]
    simp only [List.zipIdx_singleton, zero_add, List.map_cons, List.map_nil, List.sum_cons,
      List.sum_nil, add_zero]
    rcases lt_trichotomy links.length j with hlt | rfl | hlt
    · have hlen : (links ++ [r]).length ≤ j := by
        rw [List.length_append, List.length_singleton]
        exact hlt
      rw [if_neg hlt.ne, List.getElem?_eq_none hlt.le, List.getElem?_eq_none hlen]
      exact add_zero _
    · rw [if_pos rfl, List.getElem?_eq_none le_rfl, List.getElem?_concat_length]
      exact zero_add _
    · rw [if_neg hlt.ne', List.getElem?_append_left hlt, add_zero]

def relocatedShare (linkState : LinkState) (links : List LinkCount) (scan : DataScan) (moved : ℕ)
    (p : LinkCount × ℕ) : ℚ :=
  if up linkState p.1 then
    if p.2 = scan.nDefIndex then ((scan.nDefN - moved : ℕ) : ℚ) / sumPkt linkState links
    else if p.2 = scan.defIndex then ((p.1.total + moved : ℕ) : ℚ) / sumPkt linkState links
    else p.1.total / sumPkt linkState links
  else 0

def Lands (linkState : LinkState) (links : List LinkCount) (scan : DataScan) : Prop :=
  scan.defIndex ≠ scan.nDefIndex ∧ ∃ r, links[scan.defIndex]? = some r ∧ up linkState r

section Shares
variable {moved : ℕ} (hscan : Scanned linkState links v) (hn : sumPkt linkState links ≠ 0)
  (hpos : 0 < moved) (hmoved : moved ≤ v.nDefN)
include hscan hpos hmoved

theorem exists_other : ∃ r, links[v.nDefIndex]? = some r ∧ otherData linkState r ∧
    r.total = v.nDefN := by
  rcases hscan.nDefIndex with h | ⟨hzero, -⟩
  · exact h
  · omega

theorem relocatedShare_eq {p : LinkCount × ℕ} (hp : p ∈ links.zipIdx) :
    relocatedShare linkState links v moved p =
      ((if up linkState p.1 then (p.1.total : ℚ) else 0) +
        ((if p.2 = v.defIndex then
            (if v.defIndex ≠ v.nDefIndex ∧ up linkState p.1 then 1 else 0) else 0) +
          (if p.2 = v.nDefIndex then (if up linkState p.1 then -1 else 0) else 0)) * moved) /
        sumPkt linkState links := by
  obtain ⟨r, hr, -, htotal⟩ := exists_other hscan hpos hmoved
  have hget := (List.mem_zipIdx_iff_getElem?).mp hp
  unfold relocatedShare
  by_cases hup : up linkState p.1
  · simp only [hup, ↓reduceIte, and_true]
    by_cases hother : p.2 = v.nDefIndex
    · have heq : p.1.total = v.nDefN := by
        rw [hother, hr] at hget
        rw [← Option.some.inj hget, htotal]
      have hnot : ¬ (p.2 = v.defIndex ∧ v.defIndex ≠ v.nDefIndex) := fun h => h.2 (h.1 ▸ hother)
      rw [if_pos hother, if_pos hother, Nat.cast_sub hmoved, heq]
      have hzero : (if p.2 = v.defIndex then (if v.defIndex ≠ v.nDefIndex then (1 : ℚ) else 0)
          else 0) = 0 := by
        split_ifs with h1 h2
        · exact absurd ⟨h1, h2⟩ hnot
        · rfl
        · rfl
      rw [hzero]
      ring
    · rw [if_neg hother, if_neg hother]
      by_cases hdef : p.2 = v.defIndex
      · have hne : v.defIndex ≠ v.nDefIndex := fun heq => hother (hdef.trans heq)
        rw [if_pos hdef, if_pos hdef, if_pos hne]
        push_cast
        ring
      · rw [if_neg hdef, if_neg hdef]
        ring
  · simp [hup]

include hn

theorem sum_relocatedShare : (links.zipIdx.map (relocatedShare linkState links v moved)).sum = 1 ↔
    Lands linkState links v := by
  obtain ⟨r, hr, hother, -⟩ := exists_other hscan hpos hmoved
  have hn' : (sumPkt linkState links : ℚ) ≠ 0 := Nat.cast_ne_zero.mpr hn
  have hm : (moved : ℚ) ≠ 0 := Nat.cast_ne_zero.mpr hpos.ne'
  have htotals : (links.zipIdx.map fun p =>
      if up linkState p.1 then (p.1.total : ℚ) else 0).sum = sumPkt linkState links := by
    have hfst : links.zipIdx.map (fun p => if up linkState p.1 then (p.1.total : ℚ) else 0) =
        links.map fun r => if up linkState r then (r.total : ℚ) else 0 := by
      conv_rhs => rw [← List.zipIdx_map_fst 0 links]
      rw [List.map_map]
      rfl
    rw [hfst, sum_up, sumPkt_cast]
  have hsum := sum_affine (l := links.zipIdx)
    (fun p => if up linkState p.1 then (p.1.total : ℚ) else 0)
    (fun p => (if p.2 = v.defIndex then
        (if v.defIndex ≠ v.nDefIndex ∧ up linkState p.1 then 1 else 0) else 0) +
      (if p.2 = v.nDefIndex then (if up linkState p.1 then -1 else 0) else 0))
    moved (sumPkt linkState links)
  rw [List.map_congr_left fun p hp => relocatedShare_eq hscan hpos hmoved hp, hsum, htotals,
    List.sum_map_add, sum_at fun r => if v.defIndex ≠ v.nDefIndex ∧ up linkState r then 1 else 0,
    sum_at fun r => if up linkState r then -1 else 0, hr, Option.map_some, Option.getD_some,
    if_pos (otherData_iff.mp hother).1, div_eq_one_iff_eq hn']
  by_cases hland : Lands linkState links v
  · obtain ⟨hne, c, hc, hup⟩ := hland
    rw [hc, Option.map_some, Option.getD_some, if_pos ⟨hne, hup⟩]
    exact iff_of_true (by ring) ⟨hne, c, hc, hup⟩
  · have hzero : (links[v.defIndex]?.map fun r =>
        if v.defIndex ≠ v.nDefIndex ∧ up linkState r then (1 : ℚ) else 0).getD 0 = 0 := by
      cases hc : links[v.defIndex]? with
      | none => rfl
      | some c =>
        rw [Option.map_some, Option.getD_some]
        exact if_neg fun h => hland ⟨h.1, c, hc, h.2⟩
    rw [hzero]
    refine iff_of_false (fun h => hm ?_) hland
    linarith

theorem relocated_iff (hk : sumCongested linkState links = 0) :
    (∃ ratio, links.zipIdx.mapM (relocated linkState links v moved) = .ok ratio ∧ IsRatio ratio) ↔
      Lands linkState links v := by
  have hn' : (0 : ℚ) < sumPkt linkState links := by exact_mod_cast Nat.pos_of_ne_zero hn
  have hclear : ∀ r ∈ links, up linkState r → r.violations = 0 := by
    intro r hr hup
    exact List.sum_eq_zero_iff.mp hk _ (List.mem_map_of_mem (mem_upLinks.mpr ⟨hr, hup⟩))
  have hok : ∀ p ∈ links.zipIdx, relocated linkState links v moved p =
      .ok (relocatedShare linkState links v moved p) := by
    intro p hp
    unfold relocated relocatedShare
    by_cases hup : up linkState p.1
    · have hmem : p.1 ∈ links := List.mem_of_getElem? (List.mem_zipIdx_iff_getElem?.mp hp)
      have hgood : ¬ (p.1.total < p.1.violations ∨ sumPkt linkState links = 0) := by
        rw [hclear _ hmem hup]
        exact not_or.mpr ⟨Nat.not_lt_zero _, hn⟩
      simp only [if_pos hup, if_neg hgood, divide_pos _ hn']
      split_ifs <;> rfl
    · rw [if_neg hup, if_neg hup]
  have hnil : links.zipIdx.map (relocatedShare linkState links v moved) ≠ [] := by
    obtain ⟨r, hr, -⟩ := exists_other hscan hpos hmoved
    rw [Ne, List.map_eq_nil_iff, List.zipIdx_eq_nil_iff]
    exact List.ne_nil_of_mem (List.mem_of_getElem? hr)
  rw [mapM_eq_map hok, ← sum_relocatedShare hscan hn hpos hmoved]
  constructor
  · intro h
    obtain ⟨ratio, heq, hratio⟩ := h
    rw [← Except.ok.inj heq] at hratio
    exact (hratio.resolve_left hnil).2
  · intro h
    refine ⟨_, rfl, .inr ⟨fun s hs => ?_, h⟩⟩
    obtain ⟨p, -, rfl⟩ := List.mem_map.mp hs
    unfold relocatedShare
    split_ifs <;> positivity

end Shares

theorem truncate_div (a b : ℕ) : (truncate (1 / (b : ℚ) * a)).toNat = a / b := by
  have h : (1 / (b : ℚ) * a) = a / b := by ring
  have hnum : 0 ≤ ((a : ℚ) / b).num := Rat.num_nonneg.mpr (by positivity)
  rw [h, truncate, Int.tdiv_eq_ediv_of_nonneg hnum, ← Rat.floor_def',
    Rat.floor_natCast_div_natCast]
  rfl

theorem defaultReady_of_mem (hr : r ∈ links) (hup : up linkState r = true)
    (hdef : isDefault linkState r = true) : DefaultReady linkState links := by
  have hcid := isDefault_iff.mp hdef
  exact ⟨hcid ▸ List.mem_map_of_mem hr, hcid ▸ hup⟩

theorem mem_dataLinks : r ∈ dataLinks linkState links ↔
    r ∈ links ∧ up linkState r = true ∧ 0 < r.total := by
  rw [dataLinks, List.mem_filter, mem_upLinks, decide_eq_true_eq, and_assoc]

theorem exists_data (hpkt : sumPkt linkState links ≠ 0) : ∃ r, r ∈ dataLinks linkState links := by
  by_contra hnone
  push Not at hnone
  refine hpkt (List.sum_eq_zero fun x hx => ?_)
  obtain ⟨r, hr, rfl⟩ := List.mem_map.mp hx
  obtain ⟨hmem, hup⟩ := mem_upLinks.mp hr
  by_contra hpos
  exact hnone r (mem_dataLinks.mpr ⟨hmem, hup, Nat.pos_of_ne_zero hpos⟩)

theorem dataLinks_eq_other (h : ∀ r ∈ links, up linkState r → ¬ isDefault linkState r) :
    dataLinks linkState links = links.filter (otherData linkState) := by
  rw [dataLinks, upLinks, List.filter_filter]
  refine List.filter_congr fun r hr => ?_
  rw [Bool.eq_iff_iff, otherData_iff, Bool.and_eq_true, decide_eq_true_eq]
  constructor
  · intro hdata
    exact ⟨hdata.2, h r hr hdata.2, hdata.1⟩
  · intro hdata
    exact ⟨hdata.2.2, hdata.1⟩

theorem lands_iff (hscan : Scanned linkState links v) (hdata : 2 ≤ v.linkWithData)
    (hother : 0 < v.nDefN) : Lands linkState links v ↔
      DefaultReady linkState links ∨ ∃ r, links[0]? = some r ∧ up linkState r := by
  obtain ⟨c, hc, hcother, -⟩ := exists_other hscan hother le_rfl
  rcases hscan.defIndex with ⟨r, hr, hup, hdef⟩ | ⟨hzero, hnone⟩
  · have hne : v.defIndex ≠ v.nDefIndex := by
      intro heq
      rw [heq, hc] at hr
      exact (otherData_iff.mp hcother).2.1 (Option.some.inj hr ▸ hdef)
    exact iff_of_true ⟨hne, r, hr, hup⟩
      (.inl (defaultReady_of_mem (List.mem_of_getElem? hr) hup hdef))
  · have hnot : ¬ DefaultReady linkState links := by
      intro hready
      obtain ⟨r, hr, hcid⟩ := List.mem_map.mp hready.1
      have hdef := isDefault_iff.mpr hcid
      exact hnone r hr (hready.up hdef) hdef
    have hspread := hscan.spread
    rw [← dataLinks_eq_other hnone, ← hscan.linkWithData] at hspread
    rw [or_iff_right hnot, Lands, hzero, and_iff_right]
    omega

theorem noCongestion_iff (hn : (links.map LinkCount.cid).Nodup) (hpkt : sumPkt linkState links ≠ 0)
    (hk : sumCongested linkState links = 0) (splittingBurst : ℕ) :
    (∃ ratio, noCongestion linkState links splittingBurst = .ok ratio ∧ IsRatio ratio) ↔
      ((dataLinks linkState links).length = 1 → DefaultReady linkState links) ∧
        ((dataLinks linkState links).length ≠ 1 → 0 < splittingBurst ∧
          (splittingBurst ≤ sumPkt linkState links → DefaultReady linkState links ∨
            ∃ r, links[0]? = some r ∧ up linkState r)) := by
  have hscan : Scanned linkState links (dataScan linkState links) := dataScan_scanned
  obtain ⟨r, hr⟩ := exists_data hpkt
  have hne : links ≠ [] := List.ne_nil_of_mem (mem_dataLinks.mp hr).1
  have hlen : 0 < (dataLinks linkState links).length := List.length_pos_of_mem hr
  simp only [noCongestion, hscan.linkWithData]
  by_cases hone : (dataLinks linkState links).length = 1
  · simp only [hone, ↓reduceIte, forall_const, ne_eq, not_true_eq_false, false_implies, and_true]
    rw [← oneLink_iff hn hne]
    constructor
    · intro h
      obtain ⟨ratio, heq, hratio⟩ := h
      exact pure_eq_ok.mp heq ▸ hratio
    · intro h
      exact ⟨_, rfl, h⟩
  · simp only [hone, ↓reduceIte, false_implies, true_and, ne_eq, not_false_eq_true, forall_const]
    rcases Nat.eq_zero_or_pos splittingBurst with rfl | hburst
    · refine iff_of_false (fun h => ?_) (fun h => absurd h.1 (lt_irrefl _))
      obtain ⟨ratio, h, -⟩ := h
      obtain ⟨a, ha, -⟩ := bind_eq_ok.mp h
      exact (divide_eq_ok.mp ha).1 Nat.cast_zero
    · have hburst' : (0 : ℚ) < splittingBurst := by exact_mod_cast hburst
      rw [and_iff_right hburst, divide_pos _ hburst']
      simp only [bind, Except.bind, minSplitAdjustmentStep, Nat.cast_one, truncate_div]
      by_cases hmoved : 0 < min (dataScan linkState links).nDefN
          (sumPkt linkState links / splittingBurst)
      · obtain ⟨hother, hdiv⟩ := lt_min_iff.mp hmoved
        have hle : splittingBurst ≤ sumPkt linkState links := (Nat.div_pos_iff.mp hdiv).2
        have hdata : 2 ≤ (dataScan linkState links).linkWithData := by
          rw [hscan.linkWithData]
          omega
        simp only [gt_iff_lt, if_pos hmoved]
        rw [relocated_iff hscan hpkt hmoved (min_le_left _ _) hk, lands_iff hscan hdata hother]
        exact ⟨fun h _ => h, fun h => h hle⟩
      · simp only [gt_iff_lt, if_neg hmoved]
        refine iff_of_true ⟨[], rfl, .inl rfl⟩ fun hle => ?_
        have hdiv : 0 < sumPkt linkState links / splittingBurst := Nat.div_pos hle hburst
        have hzero : (dataScan linkState links).nDefN = 0 := by
          by_contra hpos
          exact hmoved (lt_min (Nat.pos_of_ne_zero hpos) hdiv)
        obtain ⟨hmem, hup, hpos⟩ := mem_dataLinks.mp hr
        have hnone : ¬ otherData linkState r = true := by
          rcases hscan.nDefIndex with ⟨c, -, hc, htotal⟩ | ⟨-, hnone⟩
          · have := (otherData_iff.mp hc).2.2
            omega
          · exact hnone r hmem
        have hdef : isDefault linkState r = true := by
          by_contra hdef
          exact hnone (otherData_iff.mpr ⟨hup, hdef, hpos⟩)
        exact .inl (defaultReady_of_mem hmem hup hdef)

end Relocation

section Main
variable {linkState : LinkState} {links : List LinkCount}

theorem seconds_pos {duration : ℕ} (h : 0 < duration) : 0 < seconds duration := by
  have : (0 : ℚ) < duration := by exact_mod_cast h
  unfold seconds
  positivity

/-- The new ratios are ratios just under the condition. -/
theorem newRatio_isRatio_iff (linkState : LinkState) (links : List LinkCount)
    (duration splittingBurst : ℕ) (history : BwHistory) (hn : (links.map LinkCount.cid).Nodup)
    (hup : ∃ r ∈ links, up linkState r) :
    (∃ ratio history', newRatio linkState links (seconds duration) splittingBurst history =
        .ok (ratio, history') ∧ IsRatio ratio) ↔
      RatioCondition linkState links duration splittingBurst := by
  obtain ⟨c, hc, hcup⟩ := hup
  have hne : links ≠ [] := List.ne_nil_of_mem hc
  simp only [newRatio, bind_eq_ok]
  constructor
  · intro h
    obtain ⟨ratio, history', ⟨extended, hext, ratio', hcase, heq⟩, hratio⟩ := h
    cases pure_eq_ok.mp heq
    rw [caseRatio] at hcase
    have hduration : 0 < duration := by
      refine Nat.pos_of_ne_zero fun hzero => duration_ne hext hc hcup ?_
      rw [seconds, hzero, Nat.cast_zero, zero_div]
    refine ⟨hduration, fun hsteer => ?_, fun hpkt hk hlen => ?_, fun hpkt hk r hr => ?_⟩
    · by_cases hpkt : sumPkt linkState links = 0
      · rw [if_pos hpkt] at hcase
        exact (noTraffic_iff hn hne).mp ⟨_, hcase, hratio⟩
      · obtain ⟨hk, hlen⟩ := hsteer.resolve_left hpkt
        rw [if_neg hpkt, if_pos hk] at hcase
        exact ((noCongestion_iff hn hpkt hk splittingBurst).mp ⟨_, hcase, hratio⟩).1 hlen
    · rw [if_neg hpkt, if_pos hk] at hcase
      exact ((noCongestion_iff hn hpkt hk splittingBurst).mp ⟨_, hcase, hratio⟩).2 hlen
    · rw [if_neg hpkt, if_neg hk] at hcase
      split_ifs at hcase
      · exact counts_of_medium hcase hr
      · exact counts_of_heavy hcase hr
  · intro h
    have hd := seconds_pos h.duration
    obtain ⟨extended, hext⟩ : ∃ extended,
        links.foldlM (extendHistory linkState (seconds duration)) history = .ok extended :=
      extendHistory_total hd.ne'
    have hcase : ∃ ratio, caseRatio linkState links (seconds duration) splittingBurst
        (trimHistory extended) = .ok ratio ∧ IsRatio ratio := by
      unfold caseRatio
      split_ifs with hpkt hk hclear
      · exact (noTraffic_iff hn hne).mpr (h.steer (.inl hpkt))
      · exact (noCongestion_iff hn hpkt hk splittingBurst).mpr
          ⟨fun hlen => h.steer (.inr ⟨hk, hlen⟩), h.relocate hpkt hk⟩
      · refine mediumCongestion_isRatio hd hpkt hk hclear (fun r hr => ?_) (h.counts hpkt hk)
        obtain ⟨hmem, hup⟩ := mem_upLinks.mp hr
        exact le_maxBw hext hn hmem hup
      · exact heavyCongestion_isRatio hpkt (h.counts hpkt hk)
    obtain ⟨ratio, hok, hratio⟩ := hcase
    exact ⟨ratio, _, ⟨extended, hext, ratio, hok, rfl⟩, hratio⟩

theorem newRatio_isRatio_iff_twoLinks :
    (∃ ratio history', newRatio { cidList := [0, 1] } [⟨0, 10, 0⟩, ⟨1, 5, 2⟩] (seconds 10000000) 128
        (fun _ => []) = .ok (ratio, history') ∧ IsRatio ratio) ↔
      RatioCondition { cidList := [0, 1] } [⟨0, 10, 0⟩, ⟨1, 5, 2⟩] 10000000 128 :=
  newRatio_isRatio_iff { cidList := [0, 1] } [⟨0, 10, 0⟩, ⟨1, 5, 2⟩] 10000000 128 (fun _ => [])
    (by decide) ⟨⟨0, 10, 0⟩, by decide, by decide⟩

theorem newRatio_silent {duration : ℚ} (hd : duration ≠ 0) {r : LinkCount}
    (hpkt : sumPkt linkState (r :: links) = 0) {e : RatioFault}
    (he : noTraffic linkState r = .error e) (splittingBurst : ℕ) (history : BwHistory) :
    newRatio linkState (r :: links) duration splittingBurst history = .error e := by
  obtain ⟨extended, hext⟩ : ∃ extended,
      (r :: links).foldlM (extendHistory linkState duration) history = .ok extended :=
    extendHistory_total hd
  rw [newRatio, hext]
  simp only [bind, Except.bind, caseRatio, if_pos hpkt, List.mapM_cons, he]

def silentInterval : RxMeasurement ℚ :=
  { links := 2, cidList := [0, 1], totalPktNumList := [0, 0], delayViolationPktNumList := [0, 0] }

def defaultInUse : ViolationState ℚ :=
  { rx := { splittingBurst := 128, lastSplittingIndexList := [128, 0], flowActive := true }
    linkState := { cidList := [0, 1] }
    lastRatio := [1, 0] }

/-- The default link is taken down for lack of data and stays the default link, although the other
link is up. -/
theorem newRatio_defaultDown :
    ∃ v, GmaRxControl.linkFailure silentInterval defaultInUse = .ok (v, true) ∧
      v.linkState.isLinkUp 1 ∧
      newRatio v.linkState (linkCounts silentInterval) (seconds 10000000) 128 (fun _ => []) =
        .error .defaultLinkDown := by
  refine ⟨_, rfl, by decide, ?_⟩
  have hd : seconds 10000000 ≠ 0 := (seconds_pos (by decide)).ne'
  exact newRatio_silent (r := ⟨0, 0, 0⟩) hd (by decide) rfl 128 _

end Main
end ViolationRatio
end NetGymSim.Gma

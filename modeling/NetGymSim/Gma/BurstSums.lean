import NetGymSim.Gma.RatioConservation
import NetGymSim.Gma.RxDecisions
import NetGymSim.Lib.Machine
import Mathlib.Data.List.GetD
import Mathlib.Tactic.IntervalCases

/-!
# The sum of a decision

Every list that a decision sends over all links sums to the burst. Each algorithm ends by
asserting this in a byte, and the list never sums to more than a byte holds, so that the
assertion is about the sum itself.
-/

namespace NetGymSim.Gma
open NetGymSim.Lib

namespace GmaRxControl

section Rounding
variable {shares : List ℕ} {units burst : ℕ}

theorem maxElement_spec (h : shares ≠ []) :
    ∃ x, shares[maxElement shares]? = some x ∧ ∀ y ∈ shares, y ≤ x := by
  obtain ⟨x, hx⟩ : ∃ x, shares.max? = some x := by
    cases hmax : shares.max? with
    | none => exact absurd (List.max?_eq_none_iff.mp hmax) h
    | some x => exact ⟨x, rfl⟩
  have hmem : x ∈ shares := List.max?_mem hx
  refine ⟨x, ?_, (List.max?_le_iff hx).mp le_rfl⟩
  rw [maxElement, hx]
  exact List.getElem?_idxOf hmem

theorem sum_eq_zero_of_le_zero {x : ℕ} (hx : ∀ y ∈ shares, y ≤ x) (hzero : x = 0) :
    shares.sum = 0 :=
  List.sum_eq_zero fun y hy => Nat.le_zero.mp (hzero ▸ hx y hy)

theorem exists_raised (hne : shares ≠ []) (hlt : shares.sum + 1 < 256) :
    ∃ x, shares[maxElement shares]? = some x ∧ x + 1 < 256 ∧
      (shares.getD (maxElement shares) 0 + 1) % 256 = x + 1 ∧
      (shares.set (maxElement shares) (x + 1)).sum = shares.sum + 1 := by
  obtain ⟨x, hx, -⟩ := maxElement_spec hne
  have hle := le_sum_of_getElem? hx
  have hset := sum_set_add hx (x + 1)
  refine ⟨x, hx, by omega, ?_, by omega⟩
  rw [List.getD_eq_getElem?_getD, hx, Option.getD_some]
  exact Nat.mod_eq_of_lt (by omega)

theorem exists_lowered (hbyte : ∀ x ∈ shares, x < 256) (hpos : 0 < shares.sum) :
    ∃ x, shares[maxElement shares]? = some x ∧ 0 < x ∧
      (shares.getD (maxElement shares) 0 + 255) % 256 = x - 1 ∧
      (shares.set (maxElement shares) (x - 1)).sum + 1 = shares.sum ∧
      ∀ y ∈ shares.set (maxElement shares) (x - 1), y < 256 := by
  have hne : shares ≠ [] := by
    intro hnil
    rw [hnil, List.sum_nil] at hpos
    exact absurd hpos (lt_irrefl 0)
  obtain ⟨x, hx, hmax⟩ := maxElement_spec hne
  have hxpos : x ≠ 0 := by
    intro hzero
    have := sum_eq_zero_of_le_zero hmax hzero
    omega
  have hlt : x < 256 := hbyte x (List.mem_of_getElem? hx)
  have hle := le_sum_of_getElem? hx
  have hset := sum_set_add hx (x - 1)
  refine ⟨x, hx, Nat.pos_of_ne_zero hxpos, ?_, by omega, ?_⟩
  · rw [List.getD_eq_getElem?_getD, hx, Option.getD_some]
    omega
  · intro y hy
    cases List.mem_or_eq_of_mem_set hy with
    | inl hy => exact hbyte y hy
    | inr heq => omega

theorem addUnits_sum (hne : shares ≠ []) (hlt : shares.sum + units < 256) :
    (addUnits units shares).sum = shares.sum + units ∧
      (addUnits units shares).length = shares.length := by
  induction units generalizing shares with
  | zero => exact ⟨rfl, rfl⟩
  | succ units ih =>
    obtain ⟨x, -, -, hnext, hset⟩ := exists_raised hne (by omega)
    have hne' : shares.set (maxElement shares) (x + 1) ≠ [] := by
      rw [Ne, List.set_eq_nil_iff]
      exact hne
    rw [addUnits, hnext]
    obtain ⟨hsum, hlength⟩ := ih hne' (by omega)
    exact ⟨by omega, hlength.trans List.length_set⟩

theorem removeUnits_sum (hbyte : ∀ x ∈ shares, x < 256) (hle : units ≤ shares.sum) :
    (removeUnits units shares).sum = shares.sum - units ∧
      (removeUnits units shares).length = shares.length := by
  induction units generalizing shares with
  | zero => exact ⟨rfl, rfl⟩
  | succ units ih =>
    obtain ⟨x, -, -, hnext, hset, hbyte'⟩ := exists_lowered hbyte (by omega)
    rw [removeUnits, hnext]
    obtain ⟨hsum, hlength⟩ := ih hbyte' (by omega)
    exact ⟨by omega, hlength.trans List.length_set⟩

theorem fixRounding_sum (hne : shares ≠ []) (hbyte : ∀ x ∈ shares, x < 256)
    (hburst : burst < 256) :
    (fixRounding burst shares).sum = burst ∧
      (fixRounding burst shares).length = shares.length := by
  simp only [fixRounding]
  by_cases hle : burst ≤ shares.sum
  · rw [Nat.sub_eq_zero_of_le hle]
    obtain ⟨hsum, hlen⟩ := removeUnits_sum hbyte (Nat.sub_le shares.sum burst)
    exact ⟨by rw [addUnits, hsum]; omega, hlen⟩
  · have hlt : shares.sum + (burst - shares.sum) < 256 := by omega
    obtain ⟨hsum, hlen⟩ := addUnits_sum hne hlt
    have hnone : (addUnits (burst - shares.sum) shares).sum - burst = 0 := by omega
    rw [hnone, removeUnits]
    exact ⟨by omega, hlen⟩

theorem addUnits_length (units : ℕ) (shares : List ℕ) :
    (addUnits units shares).length = shares.length := by
  induction units generalizing shares with
  | zero => rfl
  | succ units ih => exact (ih _).trans List.length_set

theorem removeUnits_length (units : ℕ) (shares : List ℕ) :
    (removeUnits units shares).length = shares.length := by
  induction units generalizing shares with
  | zero => rfl
  | succ units ih => exact (ih _).trans List.length_set

theorem fixRounding_length (burst : ℕ) (shares : List ℕ) :
    (fixRounding burst shares).length = shares.length :=
  (removeUnits_length _ _).trans (addUnits_length _ _)

theorem byte_lt (x : ℤ) : byte x < 256 := by
  unfold byte
  omega

end Rounding

structure Within (links : ℕ) (s : GmaRxControl) : Prop where
  sum : s.lastSplittingIndexList.sum < 256
  length : s.lastSplittingIndexList.length ≤ links
  burst : s.splittingBurst ∈ setterBursts

def Fits (links : ℕ) (s : GmaRxControl) (shares : List ℕ) : Prop :=
  shares.length = links → 0 < shares.sum → shares.sum = s.splittingBurst

theorem lt_of_mem_setterBursts {burst : ℕ} (h : burst ∈ setterBursts) :
    0 < burst ∧ burst < 256 := by
  revert burst
  decide

theorem shareOf_sum_le {burst : ℕ} {cid : Cid} {cidList : List Cid} (hn : cidList.Nodup) :
    (shareOf burst cid cidList).sum = burst ∨ (shareOf burst cid cidList).sum = 0 := by
  by_cases h : cid ∈ cidList
  · exact .inl (shareOf_sum hn h)
  · exact .inr (List.sum_eq_zero (shareOf_eq_zero h))

theorem shareOf_length {burst : ℕ} {cid : Cid} {cidList : List Cid} :
    (shareOf burst cid cidList).length = cidList.length := List.length_map _

section Check
variable {s : GmaRxControl} {links : ℕ}

theorem sumRatio_length {shares : List ℕ} {sum : ℕ} (h : sumRatio shares links = .ok sum) :
    links ≤ shares.length := by
  by_contra hlt
  have hmem : shares.length ∈ List.range links := List.mem_range.mpr (by omega)
  obtain ⟨b, -, b', -, hturn⟩ := foldlM_turn (P := fun _ _ => True) (fun _ _ _ _ _ _ => trivial)
    trivial h hmem
  simp only [bind_eq_ok, vectorAt_eq_ok] at hturn
  obtain ⟨share, hshare, -⟩ := hturn
  rw [List.getElem?_eq_none le_rfl] at hshare
  cases hshare

theorem checkSum_fits (h : checkSum s links = .ok ())
    (hsum : s.lastSplittingIndexList.sum < 256) (hlen : s.lastSplittingIndexList.length ≤ links) :
    s.lastSplittingIndexList.length = links ∧
      s.lastSplittingIndexList.sum = s.splittingBurst := by
  simp only [checkSum, bind_eq_ok] at h
  obtain ⟨sum, hratio, h⟩ := h
  have hle := sumRatio_length hratio
  rw [sumRatio_eq hle, List.take_of_length_le hlen, Nat.mod_eq_of_lt hsum] at hratio
  cases hratio
  split_ifs at h with heq
  exact ⟨le_antisymm hlen hle, heq⟩

end Check

section Delay
variable {δ : Type} {A : DelayArith δ} {linkState : LinkState} {m : RxMeasurement δ}
  {s s' : GmaRxControl} {e : Extremes δ} {d : SplittingDecision} {update : Bool}

structure Stays (s s' : GmaRxControl) : Prop where
  sum : s.lastSplittingIndexList.sum < 256 → s'.lastSplittingIndexList.sum < 256
  length : s'.lastSplittingIndexList.length = s.lastSplittingIndexList.length
  burst : s'.splittingBurst = s.splittingBurst

theorem Kept.stays (h : Kept s s') : Stays s s' :=
  ⟨fun hlt => h.sum ▸ hlt, h.length, h.splittingBurst⟩

theorem Stays.trans {s'' : GmaRxControl} (h : Stays s s') (h' : Stays s' s'') : Stays s s'' :=
  ⟨fun hlt => h'.sum (h.sum hlt), h'.length.trans h.length, h'.burst.trans h.burst⟩

theorem steerToDefault_stays (h : steerToDefault linkState m s e = .ok (s', update))
    (hn : m.cidList.Nodup) (hlen : s.lastSplittingIndexList.length ≤ m.links) : Stays s s' := by
  rcases steerToDefault_cases h with rfl | ⟨hsteer, hcids, hshares, hmem, rfl⟩
  · exact (Kept.refl s').stays
  · have hdrop : s.lastSplittingIndexList.drop m.links = [] := List.drop_eq_nil_of_le hlen
    rw [hdrop, List.append_nil]
    refine ⟨fun _ => ?_, ?_, rfl⟩
    · rw [shareOf_sum (hn.sublist (List.take_sublist _ _)) hmem, hsteer.1]
      decide
    · rw [shareOf_length, List.length_take, min_eq_left hcids]
      exact le_antisymm hshares hlen

theorem compareLoss_stays {moved : Bool}
    (h : compareLoss A linkState m s e moved = .ok (s', update))
    (hn : m.cidList.Nodup) (hsum : s.lastSplittingIndexList.sum < 256)
    (hlen : s.lastSplittingIndexList.length ≤ m.links) : Stays s s' := by
  simp only [compareLoss] at h
  split_ifs at h with hloss
  · rcases lossStep_cases h with rfl | hsteer | ⟨l, share, shares, -, hshare, hpos, hmove, rfl⟩
    · exact (Kept.refl s').stays
    · exact steerToDefault_stays hsteer hn hlen
    · obtain ⟨hsum', hlen'⟩ := moveUnits_sum hmove hshare hpos hsum
      exact ⟨fun hlt => hsum'.symm ▸ hlt, hlen', rfl⟩
  · cases h
    exact (Kept.refl s).stays

theorem initSplitting_within {links : ℕ} (hw : Within links s) (hn : m.cidList.Nodup)
    (hlinks : m.cidList.length = links) : Within links (initSplitting A linkState m s) := by
  by_cases hempty : s.lastSplittingIndexList = []
  · rw [initSplitting_of_nil hempty]
    refine ⟨?_, (shareOf_length.trans hlinks).le, hw.burst⟩
    have := (lt_of_mem_setterBursts hw.burst).2
    have : (shareOf s.splittingBurst linkState.defaultLinkCid m.cidList).sum = _ ∨ _ :=
      shareOf_sum_le hn
    change (shareOf s.splittingBurst linkState.defaultLinkCid m.cidList).sum < 256
    omega
  · rwa [initSplitting_of_ne_nil hempty]

theorem delayAlgorithm_within (h : delayAlgorithm A linkState m s = .ok (s', d))
    (hn : m.cidList.Nodup) (hlinks : m.cidList.length = m.links) (hw : Within m.links s) :
    Within m.links s' ∧ s'.lastSplittingIndexList.sum = s'.splittingBurst ∧
      d.splitIndexList = s'.lastSplittingIndexList := by
  simp only [delayAlgorithm, bind_eq_ok] at h
  obtain ⟨e, -, ⟨s₁, moved⟩, h₁, s₂, h₂, ⟨s₃, update⟩, h₃, ⟨⟩, hcheck, heq⟩ := h
  cases pure_eq_ok.mp heq
  have hstart : Within m.links (initSplitting A linkState m s) :=
    initSplitting_within hw hn hlinks
  have hk : Stays (initSplitting A linkState m s) s₂ :=
    (delayStep_kept h₁ hstart.sum).1.stays.trans (saveOwd_kept h₂).1.stays
  have hk₃ := compareLoss_stays h₃ hn (hk.sum hstart.sum) (hk.length ▸ hstart.length)
  have hall := hk.trans hk₃
  have hlen : s₃.lastSplittingIndexList.length ≤ m.links := hall.length ▸ hstart.length
  obtain ⟨-, hsum⟩ := checkSum_fits hcheck (hall.sum hstart.sum) hlen
  exact ⟨⟨hall.sum hstart.sum, hlen, hall.burst ▸ hstart.burst⟩, hsum, rfl⟩

theorem congDelayAlgorithm_within (h : congDelayAlgorithm A linkState m s = .ok (s', d))
    (hn : m.cidList.Nodup) (hlinks : m.cidList.length = m.links) (hw : Within m.links s) :
    Within m.links s' ∧ (d = {} ∨ s'.lastSplittingIndexList.sum = s'.splittingBurst ∧
      d.splitIndexList = s'.lastSplittingIndexList) := by
  have hstart : Within m.links (initSplitting A linkState m s) :=
    initSplitting_within hw hn hlinks
  cases congDelayAlgorithm_cases h with
  | inl hdelay =>
    obtain ⟨hw', hsum, hd⟩ := delayAlgorithm_within hdelay hn hlinks hstart
    exact ⟨hw', .inr ⟨hsum, hd⟩⟩
  | inr hidle =>
    obtain ⟨rfl, rfl, -⟩ := hidle
    exact ⟨hstart, .inl rfl⟩

end Delay

section Violation
variable {δ : Type} {R : SplitArith δ} {m : RxMeasurement δ} {v v' : ViolationState δ}
  {inputs : Inputs δ} {d : SplittingDecision} {links : ℕ}

structure Unmoved (v v' : ViolationState δ) : Prop where
  shares : v'.rx.lastSplittingIndexList = v.rx.lastSplittingIndexList
  burst : v'.rx.splittingBurst = v.rx.splittingBurst
  adaptive : v'.rx.adaptiveSplittingBurst = v.rx.adaptiveSplittingBurst
  cidList : v'.linkState.cidList = v.linkState.cidList

theorem initShares_within (hw : Within m.links v.rx) (hn : m.cidList.Nodup)
    (hlinks : m.cidList.length = m.links) :
    (initShares m v).sum < 256 ∧ (initShares m v).length ≤ m.links := by
  unfold initShares
  split_ifs
  · have hburst := (lt_of_mem_setterBursts hw.burst).2
    have hsum : (shareOf v.rx.splittingBurst v.linkState.defaultLinkCid m.cidList).sum = _ ∨ _ :=
      shareOf_sum_le hn
    exact ⟨by omega, (shareOf_length.trans hlinks).le⟩
  · exact ⟨hw.sum, hw.length⟩

theorem initViolation_within (h : initViolation R m v = .ok v') (hw : Within m.links v.rx)
    (hn : m.cidList.Nodup) (hlinks : m.cidList.length = m.links) :
    Within m.links v'.rx ∧ v'.rx.adaptiveSplittingBurst = v.rx.adaptiveSplittingBurst ∧
      v'.linkState = v.linkState := by
  obtain ⟨hsum, hlen⟩ := initShares_within hw hn hlinks
  unfold initViolation at h
  split_ifs at h
  cases h
  exact ⟨⟨hsum, hlen, hw.burst⟩, rfl, rfl⟩

theorem noDataDown_cidList (linkState : LinkState) (cid : Cid) :
    (noDataDown linkState cid).cidList = linkState.cidList :=
  LinkState.markDown_cidList _ _ _

theorem noDataDowns_cidList (rows : List (Cid × ℕ × ℕ)) (l : LinkState) :
    (rows.foldl (fun l row => noDataDown l row.1) l).cidList = l.cidList := by
  induction rows generalizing l with
  | nil => rfl
  | cons row rows ih => exact (ih _).trans (noDataDown_cidList _ _)

theorem linkFailure_unmoved {failed : Bool} (h : linkFailure m v = .ok (v', failed)) :
    Unmoved v v' := by
  simp only [linkFailure] at h
  split at h
  · cases h
  · split_ifs at h
    · cases h
      exact ⟨rfl, rfl, rfl, noDataDown_cidList _ _⟩
    · cases h
      exact ⟨rfl, rfl, rfl, rfl⟩
  · cases h
    exact ⟨rfl, rfl, rfl, noDataDowns_cidList _ _⟩

theorem newBurst_mem {rx : GmaRxControl} (hburst : rx.splittingBurst ∈ setterBursts)
    (hest : rx.adaptiveSplittingBurst → adaptiveBurst inputs.estBurstRequirement ≠ 64) :
    newBurst inputs rx ∈ setterBursts := by
  unfold newBurst
  split_ifs with hadaptive
  · have hne := hest hadaptive
    obtain ⟨n, hn, hlow, hhigh⟩ : ∃ n : ℕ, (min (max 3 inputs.estBurstRequirement) 7).toNat = n ∧
        3 ≤ n ∧ n ≤ 7 := ⟨_, rfl, by omega, by omega⟩
    unfold adaptiveBurst at hne ⊢
    rw [hn] at hne ⊢
    interval_cases n <;> simp [setterBursts] at hne ⊢
  · exact hburst

theorem applyRatio_within {changed : Bool} (h : applyRatio R m v inputs = .ok (v', changed))
    (hw : Within m.links v.rx)
    (hest : v.rx.adaptiveSplittingBurst → adaptiveBurst inputs.estBurstRequirement ≠ 64)
    (hlinks : m.links ≠ 0) :
    Within m.links v'.rx ∧ v'.linkState = v.linkState := by
  simp only [applyRatio] at h
  have hburst : newBurst inputs v.rx ∈ setterBursts := newBurst_mem hw.burst hest
  split_ifs at h with hnone hshort hbad
  · cases h
    exact ⟨hw, rfl⟩
  · rw [not_or, not_not, not_lt] at hshort
    have hlen : (burstPerLink R (newBurst inputs v.rx) inputs.newRatio v.lastRatio).length =
        m.links := by
      rw [burstPerLink, List.length_map, List.length_zip, hshort.1, min_eq_left hshort.2]
    have hne : burstPerLink R (newBurst inputs v.rx) inputs.newRatio v.lastRatio ≠ [] := by
      intro hnil
      rw [hnil] at hlen
      exact hlinks hlen.symm
    have hbyte : ∀ x ∈ burstPerLink R (newBurst inputs v.rx) inputs.newRatio v.lastRatio,
        x < 256 := by
      intro x hx
      obtain ⟨p, -, rfl⟩ := List.mem_map.mp hx
      exact byte_lt _
    obtain ⟨hsum, hlength⟩ := fixRounding_sum hne hbyte (lt_of_mem_setterBursts hburst).2
    have hlt := (lt_of_mem_setterBursts hburst).2
    unfold takeShares at h
    split_ifs at h
    · cases h
      exact ⟨⟨hsum.trans_lt hlt, (hlength.trans hlen).le, hburst⟩, rfl⟩
    · cases h
      exact ⟨⟨hw.sum, hw.length, hburst⟩, rfl⟩

theorem delayViolation_within (h : delayViolationAlgorithm R m v inputs = .ok (v', d))
    (hw : Within m.links v.rx) (hn : m.cidList.Nodup) (hlinks : m.cidList.length = m.links)
    (hpos : m.links ≠ 0)
    (hest : v.rx.adaptiveSplittingBurst → adaptiveBurst inputs.estBurstRequirement ≠ 64) :
    Within m.links v'.rx ∧ v'.rx.lastSplittingIndexList.sum = v'.rx.splittingBurst ∧
      d.splitIndexList = v'.rx.lastSplittingIndexList ∧
      v'.linkState.cidList = v.linkState.cidList := by
  simp only [delayViolationAlgorithm] at h
  split_ifs at h
  simp only [bind_eq_ok] at h
  obtain ⟨v₁, h₁, ⟨v₂, failed⟩, h₂, ⟨v₃, changed⟩, h₃, ⟨⟩, hcheck, heq⟩ := h
  cases pure_eq_ok.mp heq
  obtain ⟨hw₁, hadaptive₁, hlink₁⟩ := initViolation_within h₁ hw hn hlinks
  have hu := linkFailure_unmoved h₂
  have hw₂ : Within m.links (noteActive m v₂).rx :=
    ⟨hu.shares ▸ hw₁.sum, hu.shares ▸ hw₁.length, hu.burst ▸ hw₁.burst⟩
  obtain ⟨hw₃, hlink₃⟩ := applyRatio_within h₃ hw₂
    (fun hadaptive => hest (hadaptive₁ ▸ hu.adaptive ▸ hadaptive)) hpos
  obtain ⟨-, hsum⟩ := checkSum_fits hcheck hw₃.sum hw₃.length
  refine ⟨hw₃, hsum, rfl, ?_⟩
  rw [hlink₃]
  exact hu.cidList.trans (congrArg _ hlink₁)

end Violation

section Steer
variable {δ : Type} {R : SplitArith δ} {linkState : LinkState} {m : RxMeasurement δ}
  {s s' : GmaRxControl} {inputs : Inputs δ} {d : SplittingDecision} {links : ℕ}

theorem sum_only (burst ind n : ℕ) :
    ((List.range n).map fun i => if i = ind then burst else 0).sum =
      if ind < n then burst else 0 := by
  induction n with
  | zero => rfl
  | succ n ih =>
    rw [List.range_succ, List.map_append, List.sum_append, ih]
    simp only [List.map_cons, List.map_nil, List.sum_cons, List.sum_nil]
    split_ifs <;> omega

theorem steerTo_within {ind : ℕ} (h : steerTo m s ind = .ok s') (hw : Within m.links s) :
    Within m.links s' ∧ Fits m.links s' s'.lastSplittingIndexList := by
  unfold steerTo at h
  split_ifs at h with hshort
  cases h
  have hburst := (lt_of_mem_setterBursts hw.burst).2
  have hdrop : s.lastSplittingIndexList.drop m.links = [] := List.drop_eq_nil_of_le hw.length
  rw [hdrop, List.append_nil]
  have hsum := sum_only s.splittingBurst ind m.links
  refine ⟨⟨?_, ?_, hw.burst⟩, ?_⟩
  · change ((List.range m.links).map fun i => if i = ind then s.splittingBurst else 0).sum < 256
    rw [hsum]
    split_ifs
    · exact hburst
    · decide
  · simp
  · intro _ hpos
    change 0 <
      ((List.range m.links).map fun i => if i = ind then s.splittingBurst else 0).sum at hpos
    change ((List.range m.links).map fun i => if i = ind then s.splittingBurst else 0).sum = _
    rw [hsum] at hpos ⊢
    split_ifs at hpos ⊢
    · rfl
    · exact absurd hpos (lt_irrefl 0)

theorem initSteer_within (hw : Within links s) (hn : m.cidList.Nodup)
    (hlinks : m.cidList.length = links) : Within links (initSteer linkState m s) := by
  unfold initSteer
  split_ifs
  · have hburst := (lt_of_mem_setterBursts hw.burst).2
    have hsum : (shareOf s.splittingBurst linkState.defaultLinkCid m.cidList).sum = _ ∨ _ :=
      shareOf_sum_le hn
    refine ⟨?_, (shareOf_length.trans hlinks).le, hw.burst⟩
    change (shareOf s.splittingBurst linkState.defaultLinkCid m.cidList).sum < 256
    omega
  · exact hw

theorem steerTraffic_within {ind : ℕ} (h : steerTraffic m s ind = .ok (s', d))
    (hw : Within m.links s) :
    Within m.links s' ∧ s'.splittingBurst = s.splittingBurst ∧
      Fits m.links s' d.splitIndexList := by
  simp only [steerTraffic, bind_eq_ok] at h
  obtain ⟨t, ht, h⟩ := h
  cases pure_eq_ok.mp h
  obtain ⟨hw', hfits⟩ := steerTo_within ht hw
  refine ⟨hw', ?_, hfits⟩
  unfold steerTo at ht
  split_ifs at ht
  cases ht
  rfl

theorem qosVerdict_within {backupLinkCid : Cid} {overOthers : ℕ} {okList : List ℕ}
    (h : qosVerdict linkState m backupLinkCid s overOthers okList = .ok (s', d))
    (hw : Within m.links s) :
    Within m.links s' ∧ s'.splittingBurst = s.splittingBurst ∧
      (d.update → Fits m.links s' d.splitIndexList) := by
  have hsteer : ∀ {ind : ℕ}, steerTraffic m s ind = .ok (s', d) →
      Within m.links s' ∧ s'.splittingBurst = s.splittingBurst ∧
        (d.update → Fits m.links s' d.splitIndexList) := by
    intro ind h
    obtain ⟨hw', hburst, hfits⟩ := steerTraffic_within h hw
    exact ⟨hw', hburst, fun _ => hfits⟩
  unfold qosVerdict at h
  split at h
  · simp only [bind_eq_ok] at h
    obtain ⟨⟨⟩, -, h⟩ := h
    split_ifs at h
    · cases pure_eq_ok.mp h
      exact ⟨hw, rfl, fun hupdate => by cases hupdate⟩
    · exact hsteer h
  · split_ifs at h
    · cases h
      exact ⟨hw, rfl, fun hupdate => by cases hupdate⟩
    · exact hsteer h
  · cases h

theorem qosSteerAlgorithm_within
    (h : qosSteerAlgorithm R linkState m inputs s = .ok (s', d)) (hw : Within m.links s)
    (hn : m.cidList.Nodup) (hlinks : m.cidList.length = m.links) :
    Within m.links s' ∧ s'.splittingBurst = 1 ∧
      (d.update → Fits m.links s' d.splitIndexList) := by
  simp only [qosSteerAlgorithm] at h
  split_ifs at h with hone
  · simp only [bind_eq_ok] at h
    obtain ⟨okList, -, h⟩ := h
    obtain ⟨hw', hburst, hfits⟩ := qosVerdict_within h (initSteer_within hw hn hlinks)
    exact ⟨hw', hburst.trans (not_not.mp hone), hfits⟩

end Steer

section LinkDown
variable {linkState : LinkState} {s s' : GmaRxControl} {d : SplittingDecision} {cid : Cid}
  {links : ℕ}

theorem linkDownTsu_within (h : linkDownTsu linkState s cid = .ok (s', d)) (hw : Within links s)
    (hn : linkState.cidList.Nodup) :
    Within links s' ∧ (d.update → Fits links s' d.splitIndexList) := by
  rcases linkDownTsu_cases h with
    ⟨rfl, hd⟩ | ⟨failedLink, share, shares, -, hshare, hshares, hcheck, rfl, rfl⟩
  · refine ⟨hw, ?_⟩
    rcases hd with rfl | ⟨-, rfl⟩
    · intro hupdate
      cases hupdate
    · have hsum :
          (shareOf s'.splittingBurst linkState.defaultLinkCid linkState.cidList).sum = _ ∨ _ :=
        shareOf_sum_le hn
      intro _ _ hpos
      change 0 < (shareOf s'.splittingBurst linkState.defaultLinkCid linkState.cidList).sum at hpos
      exact hsum.resolve_right hpos.ne'
  · have hset := sum_set_add hshare 0
    have hlt := hw.sum
    obtain ⟨hsum', hlen⟩ := distribute_sum hshares (by omega)
    rw [List.length_set] at hlen
    have hsmall : shares.sum < 256 := by omega
    obtain ⟨-, hsum⟩ := checkSum_fits hcheck hsmall hlen.le
    exact ⟨⟨hsmall, hlen.trans_le hw.length, hw.burst⟩, fun _ _ _ => hsum⟩

theorem generate_within (hw : Within links s) (hlinks : linkState.cidList.length = links)
    (hn : linkState.cidList.Nodup) (cid : Cid) (reverse : Bool) :
    Within links (generateTrafficSplittingDecision linkState s cid reverse).1 ∧
      Fits links (generateTrafficSplittingDecision linkState s cid reverse).1
        (generateTrafficSplittingDecision linkState s cid reverse).2.splitIndexList := by
  have hburst := (lt_of_mem_setterBursts hw.burst).2
  have hsum : (shareOf s.splittingBurst cid linkState.cidList).sum = _ ∨ _ := shareOf_sum_le hn
  have hfits : 0 < (shareOf s.splittingBurst cid linkState.cidList).sum →
      (shareOf s.splittingBurst cid linkState.cidList).sum = s.splittingBurst := by
    omega
  cases reverse with
  | true => exact ⟨hw, fun _ => hfits⟩
  | false =>
    refine ⟨⟨?_, (shareOf_length.trans hlinks).le, hw.burst⟩, fun _ => hfits⟩
    change (shareOf s.splittingBurst cid linkState.cidList).sum < 256
    omega

end LinkDown

section Action
variable {linkState : LinkState} {s t : GmaRxControl} {links : ℕ} {action : RlAction}
  {d : SplittingDecision} {pairs : List (Cid × ℕ)} {collected collected' : List ℕ}
  {update update' : Bool}

theorem indexOf_getElem {i : ℕ} (hn : linkState.cidList.Nodup) (hi : i < linkState.cidList.length) :
    indexOf linkState linkState.cidList[i] = i := by
  obtain ⟨ind, hind⟩ := cidToIndex_isSome (List.getElem_mem hi)
  have hget := cidToIndex_eq_some hind
  obtain ⟨hlt, heq⟩ := List.getElem?_eq_some_iff.mp hget
  rw [indexOf, hind, Option.getD_some]
  exact (hn.getElem_inj_iff).mp heq

theorem rlTurns_collect (hempty : s.lastSplittingIndexList = []) (hn : linkState.cidList.Nodup)
    (hmem : ∀ p ∈ pairs, p.1 ∈ linkState.cidList)
    (h : pairs.foldlM (rlTurn linkState) (s, collected, update) = .ok (t, collected', update')) :
    t = s ∧ collected' = collected ++ pairs.map Prod.snd := by
  induction pairs generalizing collected update with
  | nil =>
    cases h
    exact ⟨rfl, (List.append_nil _).symm⟩
  | cons p pairs ih =>
    rw [List.foldlM_cons, bind_eq_ok] at h
    obtain ⟨v, hv, h⟩ := h
    simp only [rlTurn, if_pos hempty] at hv
    cases pure_eq_ok.mp hv
    have hone : linkState.cidList.count p.1 = 1 :=
      List.count_eq_one_of_mem hn (hmem p List.mem_cons_self)
    obtain ⟨ht, hc⟩ := ih (fun q hq => hmem q (List.mem_cons_of_mem _ hq)) h
    refine ⟨ht, ?_⟩
    rw [hc, hone, List.map_cons, List.append_assoc]
    rfl

theorem rlTurns_set (hne : s.lastSplittingIndexList ≠ [])
    (hinj : pairs.Pairwise fun p q => indexOf linkState p.1 ≠ indexOf linkState q.1)
    (h : pairs.foldlM (rlTurn linkState) (s, collected, update) = .ok (t, collected', update')) :
    t.splittingBurst = s.splittingBurst ∧
      t.lastSplittingIndexList.length = s.lastSplittingIndexList.length ∧
      (∀ p ∈ pairs, t.lastSplittingIndexList[indexOf linkState p.1]? = some p.2) ∧
      ∀ i, (∀ p ∈ pairs, indexOf linkState p.1 ≠ i) →
        t.lastSplittingIndexList[i]? = s.lastSplittingIndexList[i]? := by
  induction pairs generalizing s update with
  | nil =>
    cases h
    exact ⟨rfl, rfl, by simp, fun _ _ => rfl⟩
  | cons p pairs ih =>
    rw [List.foldlM_cons, bind_eq_ok] at h
    obtain ⟨⟨s₁, c₁, u₁⟩, hv, h⟩ := h
    obtain ⟨hp, hinj⟩ := List.pairwise_cons.mp hinj
    have hs₁ : s₁.splittingBurst = s.splittingBurst ∧
        s₁.lastSplittingIndexList =
          s.lastSplittingIndexList.set (indexOf linkState p.1) p.2 ∧
        indexOf linkState p.1 < s.lastSplittingIndexList.length ∧ c₁ = collected := by
      simp only [rlTurn, if_neg hne, bind_eq_ok, vectorAt_eq_ok] at hv
      obtain ⟨share, hshare, hv⟩ := hv
      obtain ⟨hlt, heq⟩ := List.getElem?_eq_some_iff.mp hshare
      split_ifs at hv with hsame
      · cases pure_eq_ok.mp hv
        exact ⟨rfl, rfl, hlt, rfl⟩
      · rw [not_not] at hsame
        cases pure_eq_ok.mp hv
        refine ⟨rfl, ?_, hlt, rfl⟩
        rw [← hsame, ← heq, List.set_getElem_self]
    obtain ⟨hburst₁, hlist₁, hlt, rfl⟩ := hs₁
    have hlen₁ : s₁.lastSplittingIndexList.length = s.lastSplittingIndexList.length := by
      rw [hlist₁, List.length_set]
    have hne₁ : s₁.lastSplittingIndexList ≠ [] := by
      intro hnil
      rw [hnil, List.length_nil] at hlen₁
      exact hne (List.eq_nil_of_length_eq_zero hlen₁.symm)
    obtain ⟨hburst, hlen, hset, hother⟩ := ih hne₁ hinj h
    refine ⟨hburst.trans hburst₁, hlen.trans hlen₁, fun q hq => ?_, fun i hi => ?_⟩
    · rcases List.mem_cons.mp hq with rfl | hq
      · rw [hother _ fun r hr => (hp r hr).symm, hlist₁, List.getElem?_set_self hlt]
      · exact hset q hq
    · rw [hother i fun q hq => hi q (List.mem_cons_of_mem _ hq), hlist₁,
        List.getElem?_set_ne (hi p List.mem_cons_self)]

theorem zip_indexOf_ne (hn : linkState.cidList.Nodup)
    (hcids : action.cidList.Perm linkState.cidList)
    (hratio : action.ratio.length = action.cidList.length) :
    (action.cidList.zip action.ratio).Pairwise fun p q =>
      indexOf linkState p.1 ≠ indexOf linkState q.1 := by
  have hinj : ∀ c ∈ linkState.cidList, ∀ c' ∈ linkState.cidList,
      indexOf linkState c = indexOf linkState c' → c = c' := by
    intro c hc c' hc' heq
    obtain ⟨i, hi, rfl⟩ := List.getElem_of_mem hc
    obtain ⟨j, hj, rfl⟩ := List.getElem_of_mem hc'
    rw [indexOf_getElem hn hi, indexOf_getElem hn hj] at heq
    simp only [heq]
  have hnd : ((action.cidList.zip action.ratio).map Prod.fst).Nodup := by
    rw [List.map_fst_zip hratio.ge]
    exact hcids.nodup_iff.mpr hn
  refine (List.pairwise_map.mp hnd).imp_of_mem fun {p q} hp hq hpq heq => hpq ?_
  have hin : ∀ r ∈ action.cidList.zip action.ratio, r.1 ∈ linkState.cidList :=
    fun r hr => hcids.mem_iff.mp (List.of_mem_zip hr).1
  exact hinj _ (hin p hp) _ (hin q hq) heq

theorem rlTurns_sum (hw : Within linkState.cidList.length s) (hn : linkState.cidList.Nodup)
    (hcids : action.cidList.Perm linkState.cidList)
    (hratio : action.ratio.length = action.cidList.length)
    (hne : s.lastSplittingIndexList ≠ [])
    (h : (action.cidList.zip action.ratio).foldlM (rlTurn linkState) (s, collected, update) =
      .ok (t, collected', update')) :
    t.splittingBurst = s.splittingBurst ∧
      t.lastSplittingIndexList.length = linkState.cidList.length ∧
      t.lastSplittingIndexList.sum = action.ratio.sum := by
  have hfst : (action.cidList.zip action.ratio).map Prod.fst = action.cidList :=
    List.map_fst_zip hratio.ge
  have hsnd : (action.cidList.zip action.ratio).map Prod.snd = action.ratio :=
    List.map_snd_zip hratio.le
  have hpair := zip_indexOf_ne hn hcids hratio
  obtain ⟨hburst, hlen, hset, -⟩ := rlTurns_set hne hpair h
  have hentry : ∀ c ∈ linkState.cidList, ∃ r, (c, r) ∈ action.cidList.zip action.ratio := by
    intro c hc
    have hc' : c ∈ (action.cidList.zip action.ratio).map Prod.fst :=
      hfst.symm ▸ hcids.mem_iff.mpr hc
    obtain ⟨p, hp, rfl⟩ := List.mem_map.mp hc'
    exact ⟨p.2, hp⟩
  have hfull : linkState.cidList.length ≤ t.lastSplittingIndexList.length := by
    by_contra hlt
    have hi : t.lastSplittingIndexList.length < linkState.cidList.length := by omega
    obtain ⟨r, hr⟩ := hentry _ (List.getElem_mem hi)
    have := hset _ hr
    simp only [indexOf_getElem hn hi] at this
    rw [List.getElem?_eq_none le_rfl] at this
    cases this
  have hlength : t.lastSplittingIndexList.length = linkState.cidList.length :=
    le_antisymm (hlen.trans_le hw.length) hfull
  let entry : Cid → ℕ := fun c => t.lastSplittingIndexList.getD (indexOf linkState c) 0
  have hlist : t.lastSplittingIndexList = linkState.cidList.map entry := by
    refine List.ext_getElem (by rw [List.length_map, hlength]) fun i hi hi' => ?_
    rw [List.getElem_map]
    simp only [entry]
    rw [indexOf_getElem hn (by rwa [hlength] at hi), List.getD_eq_getElem _ _ hi]
  have hratios : action.ratio = action.cidList.map entry := by
    calc action.ratio = (action.cidList.zip action.ratio).map Prod.snd := hsnd.symm
      _ = (action.cidList.zip action.ratio).map (entry ∘ Prod.fst) := by
        refine List.map_congr_left fun p hp => ?_
        simp only [Function.comp, entry, List.getD_eq_getElem?_getD, hset p hp, Option.getD_some]
      _ = action.cidList.map entry := by rw [← List.map_map, hfst]
  refine ⟨hburst, hlength, ?_⟩
  calc t.lastSplittingIndexList.sum = (linkState.cidList.map entry).sum := congrArg _ hlist
    _ = (action.cidList.map entry).sum := ((hcids.map entry).sum_eq).symm
    _ = action.ratio.sum := congrArg _ hratios.symm

theorem takeBurst_eq {sumRatio : ℕ} (h : takeBurst s sumRatio = .ok t)
    (hburst : s.splittingBurst ∈ setterBursts) (hne : sumRatio ≠ 64) :
    t = { s with splittingBurst := sumRatio } ∧ sumRatio ∈ setterBursts := by
  unfold takeBurst at h
  split_ifs at h with heq hmem
  · cases h
    subst heq
    exact ⟨rfl, hburst⟩
  · cases h
    refine ⟨rfl, ?_⟩
    simp only [actionBursts, setterBursts, List.mem_cons, List.not_mem_nil, or_false] at hmem ⊢
    omega

theorem rlDecision_within (h : rlDecision linkState action s = .ok (t, d))
    (hw : Within linkState.cidList.length s) (hn : linkState.cidList.Nodup)
    (hcids : action.cidList.Perm linkState.cidList) (hlt : action.ratio.sum < 256)
    (hne : action.ratio.sum ≠ 64) :
    Within linkState.cidList.length t ∧ d.splitIndexList.sum = t.splittingBurst := by
  simp only [rlDecision] at h
  split_ifs at h with hzero hsizes
  rw [not_or, not_not, not_not] at hsizes
  simp only [bind_eq_ok] at h
  obtain ⟨⟨t₁, collected, update⟩, hturns, sum, hratio, t₂, htake, heq⟩ := h
  cases pure_eq_ok.mp heq
  have hlen : action.ratio.length = action.cidList.length := hsizes.2.trans hsizes.1.symm
  have hlinks : action.links = linkState.cidList.length := hsizes.1.symm.trans hcids.length_eq
  by_cases hempty : s.lastSplittingIndexList = []
  · have hmem : ∀ p ∈ action.cidList.zip action.ratio, p.1 ∈ linkState.cidList :=
      fun p hp => hcids.mem_iff.mp (List.of_mem_zip hp).1
    obtain ⟨rfl, hcollected⟩ := rlTurns_collect hempty hn hmem hturns
    rw [List.nil_append, List.map_snd_zip hlen.le] at hcollected
    subst hcollected
    rw [if_pos hempty, sumRatio_eq hsizes.2.ge, List.take_of_length_le hsizes.2.le,
      Nat.mod_eq_of_lt hlt] at hratio
    cases hratio
    obtain ⟨rfl, hburst⟩ := takeBurst_eq htake hw.burst hne
    refine ⟨⟨hw.sum, hw.length, hburst⟩, ?_⟩
    simp only [if_pos hempty]
  · obtain ⟨hburst₁, hlength, hsum⟩ := rlTurns_sum hw hn hcids hlen hempty hturns
    have hne₁ : t₁.lastSplittingIndexList ≠ [] := by
      intro hnil
      rw [hnil, List.length_nil] at hlength
      exact hzero (hlinks.trans hlength.symm)
    have hfit : action.links = t₁.lastSplittingIndexList.length := hlinks.trans hlength.symm
    rw [if_neg hne₁, sumRatio_eq hfit.le, List.take_of_length_le hfit.ge, hsum,
      Nat.mod_eq_of_lt hlt] at hratio
    cases hratio
    obtain ⟨rfl, hburst⟩ := takeBurst_eq htake (hburst₁ ▸ hw.burst) hne
    refine ⟨⟨hsum.trans_lt hlt, hlength.le, hburst⟩, ?_⟩
    simp only [if_neg hne₁]
    exact hsum

end Action
end GmaRxControl
end NetGymSim.Gma

/-!
## Correcting the rounding of a burst

The two loops that bring a rounded list to the size of the burst, with the running sum that
guards them. A turn is safe when the list has an entry to change and the byte does not wrap.
Both loops end whatever the list, and what they leave is what `fixRounding` computes.
-/

namespace NetGymSim.Gma
open NetGymSim.Lib

namespace GmaRxControl

abbrev BurstState : Type := List ℕ × ℤ

def raiseLargest (b : BurstState) : BurstState :=
  let index := maxElement b.1
  (b.1.set index ((b.1.getD index 0 + 1) % 256), b.2 + 1)

def lowerLargest (b : BurstState) : BurstState :=
  let index := maxElement b.1
  (b.1.set index ((b.1.getD index 0 + 255) % 256), b.2 - 1)

def HasLargest (b : BurstState) (P : ℕ → Prop) : Prop :=
  ∃ x, b.1[maxElement b.1]? = some x ∧ P x

def RaiseEnds (burst : ℕ) : BurstState → BurstState → Prop :=
  LoopEnds (fun b => b.2 < burst) (fun b => HasLargest b fun x => x + 1 < 256) raiseLargest

def LowerEnds (burst : ℕ) : BurstState → BurstState → Prop :=
  LoopEnds (fun b => b.2 > burst) (fun b => HasLargest b fun x => 0 < x) lowerLargest

/-- Both loops end, one after the other, and no turn wraps a byte. -/
def Corrects (burst : ℕ) (shares result : List ℕ) : Prop :=
  ∃ raised left, RaiseEnds burst (shares, (shares.sum : ℤ)) raised ∧
    LowerEnds burst raised left ∧ left.1 = result

theorem byte_of_bounds {x : ℤ} (h0 : 0 ≤ x) (hlt : x < 256) : (byte x : ℤ) = x := by
  unfold byte
  omega

section Loops
variable {shares result : List ℕ} {units burst : ℕ}

theorem raiseEnds_addUnits (hne : shares ≠ []) (hsum : shares.sum + units = burst)
    (hburst : burst < 256) :
    RaiseEnds burst (shares, (shares.sum : ℤ)) (addUnits units shares, (burst : ℤ)) := by
  induction units generalizing shares with
  | zero =>
    obtain rfl : shares.sum = burst := hsum
    exact .stop (lt_irrefl _)
  | succ units ih =>
    obtain ⟨x, hx, hlt, hmod, hset⟩ := exists_raised hne (by omega)
    have hne' : shares.set (maxElement shares) (x + 1) ≠ [] := by
      rw [Ne, List.set_eq_nil_iff]
      exact hne
    have hnext : raiseLargest (shares, (shares.sum : ℤ)) =
        (shares.set (maxElement shares) (x + 1),
          ((shares.set (maxElement shares) (x + 1)).sum : ℤ)) := by
      simp only [raiseLargest, hmod, hset, Nat.cast_add, Nat.cast_one]
    refine .turn ?_ ⟨x, hx, hlt⟩ ?_
    · show (shares.sum : ℤ) < burst
      omega
    · rw [hnext, addUnits, hmod]
      exact ih hne' (by omega)

theorem lowerEnds_removeUnits (hbyte : ∀ x ∈ shares, x < 256) (hsum : shares.sum = burst + units) :
    LowerEnds burst (shares, (shares.sum : ℤ)) (removeUnits units shares, (burst : ℤ)) := by
  induction units generalizing shares with
  | zero =>
    obtain rfl : shares.sum = burst := hsum
    exact .stop (lt_irrefl _)
  | succ units ih =>
    obtain ⟨x, hx, hpos, hmod, hset, hbyte'⟩ := exists_lowered hbyte (by omega)
    have hnext : lowerLargest (shares, (shares.sum : ℤ)) =
        (shares.set (maxElement shares) (x - 1),
          ((shares.set (maxElement shares) (x - 1)).sum : ℤ)) := by
      have hset' : ((shares.set (maxElement shares) (x - 1)).sum : ℤ) = shares.sum - 1 := by omega
      simp only [lowerLargest, hmod, hset']
    refine .turn ?_ ⟨x, hx, hpos⟩ ?_
    · show (shares.sum : ℤ) > burst
      omega
    · rw [hnext, removeUnits, hmod]
      exact ih hbyte' (by omega)

theorem corrects_fixRounding (hne : shares ≠ []) (hbyte : ∀ x ∈ shares, x < 256)
    (hburst : burst < 256) : Corrects burst shares (fixRounding burst shares) := by
  rcases le_total burst shares.sum with hle | hle
  · have hraise : RaiseEnds burst (shares, (shares.sum : ℤ)) (shares, (shares.sum : ℤ)) := by
      refine .stop ?_
      show ¬ (shares.sum : ℤ) < burst
      omega
    have hunits : shares.sum = burst + (shares.sum - burst) := by omega
    refine ⟨_, _, hraise, lowerEnds_removeUnits hbyte hunits, ?_⟩
    simp only [fixRounding, Nat.sub_eq_zero_of_le hle, addUnits]
  · have hsum : (addUnits (burst - shares.sum) shares).sum = burst := by
      rw [(addUnits_sum hne (by omega)).1]
      omega
    have hunits : shares.sum + (burst - shares.sum) = burst := by omega
    refine ⟨_, _, raiseEnds_addUnits hne hunits hburst, .stop (lt_irrefl _), ?_⟩
    simp only [fixRounding, hsum, Nat.sub_self, removeUnits]

theorem Corrects.unique {result' : List ℕ} (h : Corrects burst shares result)
    (h' : Corrects burst shares result') : result = result' := by
  obtain ⟨raised, left, hr, hl, rfl⟩ := h
  obtain ⟨raised', left', hr', hl', rfl⟩ := h'
  obtain rfl := hr.unique hr'
  rw [hl.unique hl']

end Loops
end GmaRxControl
end NetGymSim.Gma

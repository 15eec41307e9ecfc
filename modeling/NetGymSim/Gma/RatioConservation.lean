import NetGymSim.Gma.RxControl
import NetGymSim.Gma.DefaultLink
import Mathlib.Algebra.Order.BigOperators.Group.List
import Mathlib.Algebra.Order.Ring.Nat

/-!
# Conservation of the split ratio

The delay algorithms and the answer to a failed link move units between the entries of
`m_lastSplittingIndexList`. Each move keeps the sum, and an entry that gives units away has
them, so that no byte wraps. A measurement of exactly the registered links never makes one of
the steps fail, the assertions on the sum included, and the loop that hands out the units of a
failed link ends.
-/

namespace NetGymSim.Gma
open NetGymSim.Lib

section Vectors
variable {α : Type} {v w : List α} {ind : ℕ} {a : α}

theorem vectorAt_eq_ok : vectorAt v ind = .ok a ↔ v[ind]? = some a := by
  unfold vectorAt
  cases v[ind]? with
  | none => simp
  | some b => simp

theorem vectorSet_eq_ok : vectorSet v ind a = .ok w ↔ ind < v.length ∧ w = v.set ind a := by
  unfold vectorSet
  by_cases h : ind < v.length
  · simp [h, eq_comm]
  · simp [h]

theorem vectorAt_total (h : ind < v.length) : ∃ a, vectorAt v ind = .ok a :=
  ⟨v[ind], vectorAt_eq_ok.mpr (List.getElem?_eq_getElem h)⟩

theorem vectorSet_total (h : ind < v.length) (a : α) :
    ∃ w, vectorSet v ind a = .ok w ∧ w.length = v.length :=
  ⟨_, vectorSet_eq_ok.mpr ⟨h, rfl⟩, List.length_set⟩

theorem cidToIndex_eq_some {cid : Cid} {cidList : List Cid} {ind : ℕ}
    (h : cidToIndex cid cidList = some ind) : cidList[ind]? = some cid := by
  induction cidList generalizing ind with
  | nil => cases h
  | cons c cids ih =>
    simp only [cidToIndex] at h
    cases hi : cidToIndex cid cids with
    | some i =>
      rw [hi] at h
      obtain rfl := Option.some.inj h
      exact ih hi
    | none =>
      rw [hi] at h
      dsimp only at h
      split_ifs at h with hc
      obtain rfl := Option.some.inj h
      exact congrArg some hc

theorem cidToIndex_isSome {cid : Cid} {cidList : List Cid} (h : cid ∈ cidList) :
    ∃ ind, cidToIndex cid cidList = some ind := by
  induction cidList with
  | nil => cases h
  | cons c cids ih =>
    simp only [cidToIndex]
    cases hi : cidToIndex cid cids with
    | some i => exact ⟨_, rfl⟩
    | none =>
      rcases List.mem_cons.mp h with rfl | h
      · exact ⟨0, if_pos rfl⟩
      · obtain ⟨i, hi'⟩ := ih h
        rw [hi] at hi'
        cases hi'

end Vectors

section Sums
variable {shares : List ℕ} {ind x y burst : ℕ}

theorem sum_set_add (h : shares[ind]? = some x) (y : ℕ) :
    (shares.set ind y).sum + x = shares.sum + y := by
  induction shares generalizing ind with
  | nil => cases h
  | cons a shares ih =>
    cases ind with
    | zero =>
      obtain rfl : a = x := Option.some.inj h
      simp only [List.set_cons_zero, List.sum_cons]
      omega
    | succ ind =>
      have := ih h
      simp only [List.set_cons_succ, List.sum_cons]
      omega

theorem le_sum_of_getElem? (h : shares[ind]? = some x) : x ≤ shares.sum := by
  have := sum_set_add h 0
  omega

theorem shareOf_sum {cid : Cid} {cidList : List Cid} (hn : cidList.Nodup) (h : cid ∈ cidList) :
    (shareOf burst cid cidList).sum = burst := by
  induction cidList with
  | nil => cases h
  | cons c cids ih =>
    obtain ⟨hc, hn⟩ := List.nodup_cons.mp hn
    rw [shareOf, List.map_cons, List.sum_cons, ← shareOf]
    rcases List.mem_cons.mp h with rfl | h
    · have hzero : (shareOf burst cid cids).sum = 0 := by
        refine List.sum_eq_zero fun x hx => ?_
        obtain ⟨d, hd, rfl⟩ := List.mem_map.mp hx
        exact if_neg fun h : d = cid => hc (h ▸ hd)
      rw [hzero, if_pos rfl, Nat.add_zero]
    · rw [ih hn h, if_neg fun heq : c = cid => hc (heq ▸ h), Nat.zero_add]

theorem shareOf_eq_zero {cid : Cid} {cidList : List Cid} (h : cid ∉ cidList) :
    ∀ x ∈ shareOf burst cid cidList, x = 0 := by
  intro x hx
  obtain ⟨c, hc, rfl⟩ := List.mem_map.mp hx
  exact if_neg fun heq : c = cid => h (heq ▸ hc)

end Sums

namespace GmaRxControl

section Moves
variable {shares shares' : List ℕ} {src dst step x : ℕ}

theorem moveUnits_sum (h : moveUnits shares src dst step = .ok shares')
    (hx : shares[src]? = some x) (hstep : step ≤ x) (hlt : shares.sum < 256) :
    shares'.sum = shares.sum ∧ shares'.length = shares.length := by
  simp only [moveUnits, bind_eq_ok, vectorAt_eq_ok, vectorSet_eq_ok] at h
  obtain ⟨x', hx', given, ⟨hsrc, rfl⟩, y, hy, hdst, rfl⟩ := h
  obtain rfl : x = x' := by
    rw [hx] at hx'
    exact Option.some.inj hx'
  have hle := le_sum_of_getElem? hx
  have hgive : (x + 256 - step) % 256 = x - step := by omega
  rw [hgive] at hy ⊢
  have h1 := sum_set_add hx (x - step)
  have h2 := le_sum_of_getElem? hy
  have htake : (y + step) % 256 = y + step := by omega
  rw [htake]
  have h3 := sum_set_add hy (y + step)
  refine ⟨by omega, ?_⟩
  rw [List.length_set, List.length_set]

theorem moveUnits_total (hsrc : src < shares.length) (hdst : dst < shares.length) (step : ℕ) :
    ∃ shares', moveUnits shares src dst step = .ok shares' := by
  obtain ⟨x, hx⟩ := vectorAt_total hsrc
  obtain ⟨given, hgiven, hlen⟩ := vectorSet_total hsrc ((x + 256 - step) % 256)
  obtain ⟨y, hy⟩ := vectorAt_total (hlen ▸ hdst)
  obtain ⟨taken, htaken, -⟩ := vectorSet_total (hlen ▸ hdst) ((y + step) % 256)
  refine ⟨taken, ?_⟩
  simp only [moveUnits, bind_eq_ok]
  exact ⟨x, hx, given, hgiven, y, hy, htaken⟩

theorem sumRatio_eq {links : ℕ} (h : links ≤ shares.length) :
    sumRatio shares links = .ok ((shares.take links).sum % 256) := by
  induction links with
  | zero => rfl
  | succ n ih =>
    have hn : n < shares.length := h
    rw [sumRatio, List.range_succ, List.foldlM_append, ← sumRatio, ih hn.le]
    simp only [List.foldlM_cons, List.foldlM_nil]
    rw [List.sum_take_succ _ _ hn]
    have hat : vectorAt shares n = .ok shares[n] := vectorAt_eq_ok.mpr (List.getElem?_eq_getElem hn)
    rw [bind_eq_ok]
    refine ⟨_, rfl, ?_⟩
    rw [bind_eq_ok]
    refine ⟨_, bind_eq_ok.mpr ⟨_, hat, rfl⟩, ?_⟩
    rw [pure_eq_ok]
    omega

end Moves

structure Kept (s s' : GmaRxControl) : Prop where
  algorithm : s'.algorithm = s.algorithm
  splittingBurst : s'.splittingBurst = s.splittingBurst
  enableStableAlgorithm : s'.enableStableAlgorithm = s.enableStableAlgorithm
  sum : s'.lastSplittingIndexList.sum = s.lastSplittingIndexList.sum
  length : s'.lastSplittingIndexList.length = s.lastSplittingIndexList.length
  counters : s'.decreaseCounter.length = s.decreaseCounter.length
  owds : s'.lastOwd.length = s.lastOwd.length

theorem Kept.refl (s : GmaRxControl) : Kept s s := ⟨rfl, rfl, rfl, rfl, rfl, rfl, rfl⟩

theorem Kept.trans {s s' s'' : GmaRxControl} (h : Kept s s') (h' : Kept s' s'') : Kept s s'' where
  algorithm := h'.algorithm.trans h.algorithm
  splittingBurst := h'.splittingBurst.trans h.splittingBurst
  enableStableAlgorithm := h'.enableStableAlgorithm.trans h.enableStableAlgorithm
  sum := h'.sum.trans h.sum
  length := h'.length.trans h.length
  counters := h'.counters.trans h.counters
  owds := h'.owds.trans h.owds

section Delay
variable {δ : Type} {A : DelayArith δ} {linkState : LinkState} {m : RxMeasurement δ}
  {s s' : GmaRxControl} {e : Extremes δ} {moved update : Bool}

def Active (shares : List ℕ) (inds : List ℕ) : Prop :=
  ∃ ind ∈ inds, ∃ x, shares[ind]? = some x ∧ x ≠ 0

theorem initialExtremes_active {shares inds : List ℕ}
    (h : initialExtremes m shares inds = .ok e) : Active shares inds := by
  induction inds with
  | nil => cases h
  | cons ind inds ih =>
    simp only [initialExtremes, bind_eq_ok, vectorAt_eq_ok] at h
    obtain ⟨x, hx, h⟩ := h
    split_ifs at h with hzero
    · exact ⟨ind, List.mem_cons_self, x, hx, hzero⟩
    · obtain ⟨i, hi, hactive⟩ := ih h
      exact ⟨i, List.mem_cons_of_mem _ hi, hactive⟩

theorem countDecrease_length (maxIndex : ℕ) :
    (s.countDecrease maxIndex).length = s.decreaseCounter.length := by
  simp [countDecrease]

theorem moveByDelay_kept (h : moveByDelay s e = .ok s')
    {x : ℕ} (hx : s.lastSplittingIndexList[e.maxIndex]? = some x) (hpos : 0 < x)
    (hlt : s.lastSplittingIndexList.sum < 256) : Kept s s' := by
  simp only [moveByDelay] at h
  split_ifs at h
  · simp only [bind_eq_ok, pure_eq_ok, vectorAt_eq_ok] at h
    obtain ⟨counter, -, share, hshare, shares, hmove, rfl⟩ := h
    obtain ⟨hsum, hlen⟩ := moveUnits_sum hmove hshare (min_le_right _ _) hlt
    exact ⟨rfl, rfl, rfl, hsum, hlen, countDecrease_length _, rfl⟩
  · simp only [bind_eq_ok, pure_eq_ok] at h
    obtain ⟨shares, hmove, rfl⟩ := h
    obtain ⟨hsum, hlen⟩ := moveUnits_sum hmove hx hpos hlt
    exact ⟨rfl, rfl, rfl, hsum, hlen, rfl, rfl⟩

theorem delayStep_kept (h : delayStep A m s e = .ok (s', moved))
    (hlt : s.lastSplittingIndexList.sum < 256) :
    Kept s s' ∧ (moved = false → s'.lastSplittingIndexList = s.lastSplittingIndexList) := by
  simp only [delayStep] at h
  split_ifs at h
  · simp only [bind_eq_ok] at h
    obtain ⟨waits, -, h⟩ := h
    split_ifs at h
    · simp only [bind_eq_ok, vectorAt_eq_ok] at h
      obtain ⟨share, hshare, h⟩ := h
      split_ifs at h with hpos
      · simp only [bind_eq_ok, pure_eq_ok] at h
        obtain ⟨s₁, hmove, heq⟩ := h
        cases heq
        exact ⟨moveByDelay_kept hmove hshare hpos hlt, nofun⟩
      · cases pure_eq_ok.mp h
        exact ⟨.refl s, fun _ => rfl⟩
    · cases pure_eq_ok.mp h
      exact ⟨.refl s, fun _ => rfl⟩
  · cases pure_eq_ok.mp h
    exact ⟨⟨rfl, rfl, rfl, rfl, rfl, List.length_map _, rfl⟩, fun _ => rfl⟩

theorem owds_length {l l' : List ℤ} {inds : List ℕ} (h : inds.foldlM (owdTurn A m) l = .ok l') :
    l'.length = l.length := by
  refine foldlM_inv (P := fun v _ => v.length = l.length) ?_ rfl h
  intro v ind rest v' hv hstep
  simp only [owdTurn, bind_eq_ok, vectorSet_eq_ok] at hstep
  obtain ⟨delay, -, -, rfl⟩ := hstep
  rw [List.length_set, hv]

theorem saveOwd_kept (h : saveOwd A m s = .ok s') :
    Kept s s' ∧ s'.lastSplittingIndexList = s.lastSplittingIndexList := by
  simp only [saveOwd] at h
  split_ifs at h
  · simp only [bind_eq_ok, pure_eq_ok] at h
    obtain ⟨lastOwd, hfold, rfl⟩ := h
    exact ⟨⟨rfl, rfl, rfl, rfl, rfl, rfl, owds_length hfold⟩, rfl⟩
  · cases pure_eq_ok.mp h
    exact ⟨.refl s, rfl⟩

theorem steerTurn_fold {splittingBurst n : ℕ} {shares : List ℕ} {v : List ℕ × Bool}
    (h : (List.range n).foldlM (steerTurn linkState m splittingBurst) (shares, false) = .ok v) :
    n ≤ m.cidList.length ∧ n ≤ shares.length ∧
      v.1 = shareOf splittingBurst linkState.defaultLinkCid (m.cidList.take n) ++ shares.drop n ∧
      (v.2 ↔ linkState.defaultLinkCid ∈ m.cidList.take n) := by
  induction n generalizing v with
  | zero =>
    cases pure_eq_ok.mp h
    simp [shareOf]
  | succ n ih =>
    rw [List.range_succ, List.foldlM_append] at h
    simp only [List.foldlM_cons, List.foldlM_nil, bind_eq_ok, pure_eq_ok] at h
    obtain ⟨u, hu, w, hw, rfl⟩ := h
    obtain ⟨hcids, hshares, hlist, hflag⟩ := ih hu
    simp only [steerTurn, bind_eq_ok, vectorAt_eq_ok] at hw
    obtain ⟨cid, hcid, hw⟩ := hw
    have hn : n < m.cidList.length := (List.getElem?_eq_some_iff.mp hcid).1
    have htake : m.cidList.take (n + 1) = m.cidList.take n ++ [cid] := by
      rw [List.take_add_one, hcid]
      rfl
    have hset : ∀ x, n < u.1.length → u.1.set n x =
        shareOf splittingBurst linkState.defaultLinkCid (m.cidList.take n) ++
          x :: shares.drop (n + 1) := by
      intro x hlt
      have hlen :
          (shareOf splittingBurst linkState.defaultLinkCid (m.cidList.take n)).length = n := by
        rw [shareOf, List.length_map, List.length_take, min_eq_left hcids]
      rw [hlist, List.length_append, hlen, List.length_drop] at hlt
      rw [hlist, List.set_append_right _ _ (by omega), hlen, Nat.sub_self,
        List.drop_eq_getElem_cons (show n < shares.length by omega), List.set_cons_zero]
    have hlong : n < u.1.length → n + 1 ≤ shares.length := by
      intro hlt
      rw [hlist, List.length_append, shareOf, List.length_map, List.length_take,
        min_eq_left hcids, List.length_drop] at hlt
      omega
    split_ifs at hw with hdef
    · simp only [bind_eq_ok, vectorSet_eq_ok, pure_eq_ok] at hw
      obtain ⟨shares', ⟨hlt, rfl⟩, rfl⟩ := hw
      refine ⟨hn, hlong hlt, ?_, ?_⟩
      · rw [hset _ hlt, htake]
        simp [shareOf, hdef]
      · simp [htake, hdef]
    · simp only [bind_eq_ok, vectorSet_eq_ok, pure_eq_ok] at hw
      obtain ⟨shares', ⟨hlt, rfl⟩, rfl⟩ := hw
      refine ⟨hn, hlong hlt, ?_, ?_⟩
      · rw [hset _ hlt, htake]
        simp [shareOf, hdef]
      · simp [htake, hflag, Ne.symm hdef]

theorem sum_drop_eq_zero {shares : List ℕ} {n : ℕ} (hsum : shares.sum = 1)
    (hactive : Active shares (List.range n)) : (shares.drop n).sum = 0 := by
  obtain ⟨ind, hind, x, hx, hne⟩ := hactive
  have hlt : ind < n := List.mem_range.mp hind
  have hle : x ≤ (shares.take n).sum := by
    have hget : (shares.take n)[ind]? = some x := by rw [List.getElem?_take_of_lt hlt, hx]
    exact le_sum_of_getElem? hget
  have hsplit : (shares.take n).sum + (shares.drop n).sum = 1 := by
    rw [← List.sum_append, List.take_append_drop, hsum]
  omega

theorem steerToDefault_cases (h : steerToDefault linkState m s e = .ok (s', update)) :
    s' = s ∨
      (s.splittingBurst = 1 ∧ e.minIndex ≠ e.maxIndex ∧
        linkState.isLinkUp linkState.defaultLinkCid) ∧
      m.links ≤ m.cidList.length ∧ m.links ≤ s.lastSplittingIndexList.length ∧
      linkState.defaultLinkCid ∈ m.cidList.take m.links ∧
      s' = { s with
        lastSplittingIndexList :=
          shareOf s.splittingBurst linkState.defaultLinkCid (m.cidList.take m.links) ++
            s.lastSplittingIndexList.drop m.links } := by
  simp only [steerToDefault] at h
  split_ifs at h with hsteer
  · cases hi : cidToIndex linkState.defaultLinkCid linkState.cidList with
    | none =>
      rw [hi] at h
      cases h
    | some index =>
      rw [hi] at h
      simp only [bind_eq_ok] at h
      obtain ⟨share, -, h⟩ := h
      split_ifs at h
      · cases pure_eq_ok.mp h
        exact .inl rfl
      · simp only [bind_eq_ok] at h
        obtain ⟨v, hv, h⟩ := h
        split_ifs at h with hflag
        cases pure_eq_ok.mp h
        obtain ⟨hcids, hshares, hlist, hmem⟩ := steerTurn_fold hv
        exact .inr ⟨hsteer, hcids, hshares, hmem.mp hflag, by rw [hlist]⟩
  · cases pure_eq_ok.mp h
    exact .inl rfl

theorem steerToDefault_kept (h : steerToDefault linkState m s e = .ok (s', update))
    (hn : m.cidList.Nodup) (hsum : s.lastSplittingIndexList.sum = s.splittingBurst)
    (hactive : Active s.lastSplittingIndexList (List.range m.links)) : Kept s s' := by
  rcases steerToDefault_cases h with rfl | ⟨hsteer, hcids, hshares, hmem, rfl⟩
  · exact .refl s'
  · refine ⟨rfl, rfl, rfl, ?_, ?_, rfl, rfl⟩
    · rw [List.sum_append, shareOf_sum (hn.sublist (List.take_sublist _ _)) hmem,
        sum_drop_eq_zero (hsum.trans hsteer.1) hactive, hsum, Nat.add_zero]
    · rw [List.length_append, shareOf, List.length_map, List.length_take, min_eq_left hcids,
        List.length_drop]
      exact Nat.add_sub_of_le hshares

theorem lossStep_cases (h : lossStep A linkState m s e = .ok (s', update)) :
    s' = s ∨ steerToDefault linkState m s e = .ok (s', update) ∨
      ∃ l share shares,
        (List.range m.links).foldlM (lossTurn A linkState m s.lastSplittingIndexList)
          ⟨false, A.zero, 0, A.zero, 0⟩ = .ok l ∧
        s.lastSplittingIndexList[l.maxLossInd]? = some share ∧ share > 0 ∧
        moveUnits s.lastSplittingIndexList l.maxLossInd l.minLossInd 1 = .ok shares ∧
        s' = { s with lastSplittingIndexList := shares } := by
  simp only [lossStep, bind_eq_ok] at h
  obtain ⟨l, hl, h⟩ := h
  split_ifs at h
  · simp only [bind_eq_ok, vectorAt_eq_ok] at h
    obtain ⟨share, hshare, h⟩ := h
    split_ifs at h with hpos
    · simp only [bind_eq_ok] at h
      obtain ⟨shares, hmove, h⟩ := h
      cases pure_eq_ok.mp h
      exact .inr (.inr ⟨l, share, shares, hl, hshare, hpos, hmove, rfl⟩)
    · cases pure_eq_ok.mp h
      exact .inl rfl
  · exact .inr (.inl h)

theorem lossStep_kept (h : lossStep A linkState m s e = .ok (s', update))
    (hn : m.cidList.Nodup) (hsum : s.lastSplittingIndexList.sum = s.splittingBurst)
    (hlt : s.splittingBurst < 256)
    (hactive : Active s.lastSplittingIndexList (List.range m.links)) : Kept s s' := by
  rcases lossStep_cases h with rfl | hsteer | ⟨l, share, shares, -, hshare, hpos, hmove, rfl⟩
  · exact .refl s'
  · exact steerToDefault_kept hsteer hn hsum hactive
  · obtain ⟨hsum', hlen⟩ := moveUnits_sum hmove hshare hpos (hsum ▸ hlt)
    exact ⟨rfl, rfl, rfl, hsum', hlen, rfl, rfl⟩

/-- What the list and the vectors beside it hold before the units are looked at: the list can be
all zeros when the first measurement leaves out the default link. -/
structure Started (s : GmaRxControl) : Prop where
  burst : s.splittingBurst < 256
  shares : s.lastSplittingIndexList = [] ∨ s.lastSplittingIndexList.sum = s.splittingBurst ∨
    ∀ x ∈ s.lastSplittingIndexList, x = 0
  counters : s.decreaseCounter.length = s.lastSplittingIndexList.length
  owds : s.enableStableAlgorithm → s.lastOwd.length = s.lastSplittingIndexList.length

structure Conserved (s : GmaRxControl) : Prop where
  burst : s.splittingBurst < 256
  sum : s.lastSplittingIndexList ≠ [] → s.lastSplittingIndexList.sum = s.splittingBurst
  counters : s.decreaseCounter.length = s.lastSplittingIndexList.length
  owds : s.enableStableAlgorithm → s.lastOwd.length = s.lastSplittingIndexList.length

theorem Conserved.started (h : s.Conserved) : s.Started where
  burst := h.burst
  shares := (eq_or_ne s.lastSplittingIndexList []).imp id fun hne => .inl (h.sum hne)
  counters := h.counters
  owds := h.owds

theorem Conserved.kept (h : s.Conserved) (hk : Kept s s') (hne : s.lastSplittingIndexList ≠ []) :
    s'.Conserved where
  burst := hk.splittingBurst ▸ h.burst
  sum _ := by rw [hk.sum, hk.splittingBurst, h.sum hne]
  counters := by rw [hk.counters, hk.length, h.counters]
  owds hstable := by rw [hk.owds, hk.length, h.owds (hk.enableStableAlgorithm ▸ hstable)]

structure Sized (m : RxMeasurement δ) : Prop where
  links : m.links ≠ 0
  cidList : m.cidList.length = m.links
  delayList : m.delayList.length = m.links
  lossRateList : m.lossRateList.length = m.links

theorem sized_of_checkSizes (h : checkSizes m = .ok ()) : Sized m := by
  simp only [checkSizes] at h
  split_ifs at h with hzero hsizes
  exact ⟨hzero, hsizes.1, hsizes.2.2.1, hsizes.2.2.2.2⟩

theorem initSplitting_of_ne_nil (hne : s.lastSplittingIndexList ≠ []) :
    initSplitting A linkState m s = s := if_neg hne

theorem initSplitting_of_nil (hempty : s.lastSplittingIndexList = []) :
    initSplitting A linkState m s = { s with
      lastSplittingIndexList := shareOf s.splittingBurst linkState.defaultLinkCid m.cidList
      decreaseCounter := s.decreaseCounter ++ List.replicate m.links 1
      lastOwd := if s.enableStableAlgorithm then s.lastOwd ++ m.delayList.map A.toInt
        else s.lastOwd } := if_pos hempty

theorem initSplitting_started (h : s.Started) (hm : Sized m) (hn : m.cidList.Nodup) :
    (initSplitting A linkState m s).Started := by
  by_cases hempty : s.lastSplittingIndexList = []
  · rw [initSplitting_of_nil hempty]
    refine ⟨h.burst, .inr ?_, ?_, fun hstable => ?_⟩
    · by_cases hdef : linkState.defaultLinkCid ∈ m.cidList
      · exact .inl (shareOf_sum hn hdef)
      · exact .inr (shareOf_eq_zero hdef)
    · have := h.counters
      rw [hempty] at this
      simp [shareOf, hm.cidList, List.eq_nil_of_length_eq_zero this]
    · have hstable' : s.enableStableAlgorithm = true := hstable
      have := h.owds hstable'
      rw [hempty] at this
      simp [hstable', shareOf, hm.cidList, hm.delayList, List.eq_nil_of_length_eq_zero this]
  · rw [initSplitting_of_ne_nil hempty]
    exact h

theorem initSplitting_ne_nil (hm : Sized m) :
    (initSplitting A linkState m s).lastSplittingIndexList ≠ [] := by
  by_cases hempty : s.lastSplittingIndexList = []
  · rw [initSplitting_of_nil hempty]
    intro hnil
    have := congrArg List.length hnil
    simp only [shareOf, List.length_map, hm.cidList, List.length_nil] at this
    exact hm.links this
  · rwa [initSplitting_of_ne_nil hempty]

theorem initSplitting_splittingBurst :
    (initSplitting A linkState m s).splittingBurst = s.splittingBurst := by
  by_cases hempty : s.lastSplittingIndexList = []
  · rw [initSplitting_of_nil hempty]
  · rw [initSplitting_of_ne_nil hempty]

theorem Started.conserved (h : s.Started) {inds : List ℕ}
    (hactive : Active s.lastSplittingIndexList inds) : s.Conserved where
  burst := h.burst
  sum hne := by
    obtain ⟨ind, -, x, hx, hxne⟩ := hactive
    rcases h.shares with hnil | hsum | hzero
    · exact absurd hnil hne
    · exact hsum
    · exact absurd (hzero x (List.mem_of_getElem? hx)) hxne
  counters := h.counters
  owds := h.owds

theorem compareLoss_kept (h : compareLoss A linkState m s e moved = .ok (s', update))
    (hn : m.cidList.Nodup) (hsum : s.lastSplittingIndexList.sum = s.splittingBurst)
    (hlt : s.splittingBurst < 256)
    (hactive : moved = false → Active s.lastSplittingIndexList (List.range m.links)) :
    Kept s s' := by
  simp only [compareLoss] at h
  split_ifs at h with hloss
  · exact lossStep_kept h hn hsum hlt (hactive (by simpa using hloss.1))
  · cases h
    exact .refl s

theorem delayAlgorithm_conserved {d : SplittingDecision}
    (h : delayAlgorithm A linkState m s = .ok (s', d)) (hs : s.Started) (hm : Sized m)
    (hn : m.cidList.Nodup) :
    s'.Conserved ∧ s'.splittingBurst = s.splittingBurst ∧ s'.lastSplittingIndexList ≠ [] ∧
      d.splitIndexList = s'.lastSplittingIndexList := by
  simp only [delayAlgorithm, bind_eq_ok] at h
  obtain ⟨e, he, ⟨s₁, moved⟩, h₁, s₂, h₂, ⟨s₃, update⟩, h₃, -, -, heq⟩ := h
  cases pure_eq_ok.mp heq
  simp only [findExtremes, bind_eq_ok] at he
  obtain ⟨e₀, hinitial, -⟩ := he
  have hactive := initialExtremes_active hinitial
  have hstart : (initSplitting A linkState m s).Conserved :=
    (initSplitting_started hs hm hn).conserved hactive
  have hne : (initSplitting A linkState m s).lastSplittingIndexList ≠ [] :=
    initSplitting_ne_nil hm
  have hsum := hstart.sum hne
  obtain ⟨hk₁, hsame⟩ := delayStep_kept h₁ (hsum ▸ hstart.burst)
  obtain ⟨hk₂, hlist⟩ := saveOwd_kept h₂
  have hk := hk₁.trans hk₂
  have hk₃ := compareLoss_kept h₃ hn (by rw [hk.sum, hk.splittingBurst, hsum])
    (hk.splittingBurst ▸ hstart.burst) fun hmoved => by rwa [hlist, hsame hmoved]
  have hall := hk.trans hk₃
  refine ⟨hstart.kept hall hne, ?_, ?_, rfl⟩
  · rw [hall.splittingBurst, initSplitting_splittingBurst]
  · intro hnil
    have := hall.length
    rw [hnil] at this
    exact hne (List.eq_nil_of_length_eq_zero this.symm)

theorem congDelayAlgorithm_cases {d : SplittingDecision}
    (h : congDelayAlgorithm A linkState m s = .ok (s', d)) :
    delayAlgorithm A linkState m (initSplitting A linkState m s) = .ok (s', d) ∨
      s' = initSplitting A linkState m s ∧ d = {} ∧
        (initSplitting A linkState m s).splittingBurst ∈
          (initSplitting A linkState m s).lastSplittingIndexList := by
  simp only [congDelayAlgorithm, bind_eq_ok, vectorAt_eq_ok] at h
  obtain ⟨share, hshare, h⟩ := h
  split_ifs at h with hall
  · simp only [bind_eq_ok] at h
    obtain ⟨loss, -, h⟩ := h
    split_ifs at h
    · exact .inl h
    · cases pure_eq_ok.mp h
      exact .inr ⟨rfl, rfl, hall ▸ List.mem_of_getElem? hshare⟩
  · exact .inl h

theorem congDelayAlgorithm_conserved {d : SplittingDecision}
    (h : congDelayAlgorithm A linkState m s = .ok (s', d)) (hs : s.Started) (hm : Sized m)
    (hn : m.cidList.Nodup) :
    s'.Conserved ∧ s'.splittingBurst = s.splittingBurst ∧ s'.lastSplittingIndexList ≠ [] := by
  have hstart : (initSplitting A linkState m s).Started := initSplitting_started hs hm hn
  have hne : (initSplitting A linkState m s).lastSplittingIndexList ≠ [] :=
    initSplitting_ne_nil hm
  have hburst : (initSplitting A linkState m s).splittingBurst = s.splittingBurst :=
    initSplitting_splittingBurst
  cases congDelayAlgorithm_cases h with
  | inl hdelay =>
    obtain ⟨hc, hb, hne', -⟩ := delayAlgorithm_conserved hdelay hstart hm hn
    exact ⟨hc, hb.trans hburst, hne'⟩
  | inr hidle =>
    obtain ⟨rfl, -, hall⟩ := hidle
    refine ⟨⟨hstart.burst, fun _ => ?_, hstart.counters, hstart.owds⟩, hburst, hne⟩
    rcases hstart.shares with hnil | hsum | hzero
    · exact absurd hnil hne
    · exact hsum
    · rw [List.sum_eq_zero hzero, hzero _ hall]

end Delay

section LinkDown
variable {linkState : LinkState} {s s' : GmaRxControl} {d : SplittingDecision} {cid : Cid}

theorem distribute_sum {fuel units iterInd : ℕ} {shares shares' : List ℕ}
    (h : distribute linkState fuel shares units iterInd = .ok shares')
    (hlt : shares.sum + units < 256) :
    shares'.sum = shares.sum + units ∧ shares'.length = shares.length := by
  induction fuel generalizing shares units iterInd with
  | zero =>
    cases units with
    | zero =>
      cases h
      exact ⟨rfl, rfl⟩
    | succ units => cases h
  | succ fuel ih =>
    cases units with
    | zero =>
      cases h
      exact ⟨rfl, rfl⟩
    | succ units =>
      simp only [distribute, bind_eq_ok] at h
      obtain ⟨cid, -, h⟩ := h
      split_ifs at h
      · simp only [bind_eq_ok, vectorAt_eq_ok, vectorSet_eq_ok] at h
        obtain ⟨share, hshare, given, ⟨-, rfl⟩, h⟩ := h
        have hle := le_sum_of_getElem? hshare
        have hwrap : (share + 1) % 256 = share + 1 := by omega
        rw [hwrap] at h
        have hset := sum_set_add hshare (share + 1)
        obtain ⟨hsum, hlen⟩ := ih h (by omega)
        rw [List.length_set] at hlen
        exact ⟨by omega, hlen⟩
      · exact ih h hlt

theorem anyLinkUp_up {inds : List ℕ} (h : anyLinkUp linkState inds = .ok true) :
    ∃ ind ∈ inds, ∃ cid, linkState.cidList[ind]? = some cid ∧ linkState.isLinkUp cid := by
  induction inds with
  | nil => cases h
  | cons ind inds ih =>
    simp only [anyLinkUp, bind_eq_ok, vectorAt_eq_ok] at h
    obtain ⟨cid, hcid, h⟩ := h
    split_ifs at h with hup
    · exact ⟨ind, List.mem_cons_self, cid, hcid, hup⟩
    · obtain ⟨i, hi, hlink⟩ := ih h
      exact ⟨i, List.mem_cons_of_mem _ hi, hlink⟩

theorem anyLinkUp_total {inds : List ℕ} (h : ∀ ind ∈ inds, ind < linkState.cidList.length) :
    ∃ b, anyLinkUp linkState inds = .ok b := by
  induction inds with
  | nil => exact ⟨false, rfl⟩
  | cons ind inds ih =>
    obtain ⟨cid, hcid⟩ := vectorAt_total (h ind List.mem_cons_self)
    obtain ⟨b, hb⟩ := ih fun i hi => h i (List.mem_cons_of_mem _ hi)
    simp only [anyLinkUp, bind_eq_ok]
    by_cases hup : linkState.isLinkUp cid
    · refine ⟨true, cid, hcid, ?_⟩
      rw [if_pos hup]
      rfl
    · refine ⟨b, cid, hcid, ?_⟩
      rwa [if_neg hup]

theorem anyLinkUp_eq_true {inds : List ℕ} {b : Bool} (h : anyLinkUp linkState inds = .ok b)
    {ind : ℕ} (hind : ind ∈ inds) {c : Cid} (hc : linkState.cidList[ind]? = some c)
    (hup : linkState.isLinkUp c) : b = true := by
  induction inds with
  | nil => cases hind
  | cons i inds ih =>
    simp only [anyLinkUp, bind_eq_ok, vectorAt_eq_ok] at h
    obtain ⟨c', hc', h⟩ := h
    split_ifs at h with hlink
    · exact (pure_eq_ok.mp h).symm
    · rcases List.mem_cons.mp hind with rfl | hmem
      · rw [hc] at hc'
        exact absurd (Option.some.inj hc' ▸ hup) hlink
      · exact ih h hmem

/-- The place `dist` turns ahead is up: the loop reaches it, and from then on an up link is a
full round ahead. -/
theorem distribute_total {fuel iterInd size : ℕ} {shares : List ℕ} (units dist : ℕ)
    (hsize : shares.length = size) (hcids : size ≤ linkState.cidList.length) (hbyte : size ≤ 256)
    (hi : iterInd < size) (hdist : dist < size)
    (hup : ∃ cid, linkState.cidList[(iterInd + dist) % size]? = some cid ∧ linkState.isLinkUp cid)
    (hfuel : units * size + dist ≤ fuel) :
    ∃ shares', distribute linkState fuel shares units iterInd = .ok shares' := by
  induction fuel generalizing shares units iterInd dist with
  | zero =>
    cases units with
    | zero => exact ⟨shares, rfl⟩
    | succ units =>
      rw [Nat.succ_mul] at hfuel
      omega
  | succ fuel ih =>
    cases units with
    | zero => exact ⟨shares, rfl⟩
    | succ units =>
      rw [Nat.succ_mul] at hfuel
      obtain ⟨cid, hcid⟩ := vectorAt_total (show iterInd < linkState.cidList.length by omega)
      have hnextlt : (iterInd + 1) % size < size := Nat.mod_lt _ (by omega)
      have hnext : (iterInd + 1) % shares.length % 256 = (iterInd + 1) % size := by
        rw [hsize]
        exact Nat.mod_eq_of_lt (by omega)
      simp only [distribute, bind_eq_ok, hnext]
      by_cases hlink : linkState.isLinkUp cid
      · obtain ⟨share, hshare⟩ := vectorAt_total (show iterInd < shares.length by omega)
        obtain ⟨given, hgiven, hlen⟩ :=
          vectorSet_total (show iterInd < shares.length by omega) ((share + 1) % 256)
        have hround : ((iterInd + 1) % size + (size - 1)) % size = iterInd := by
          rw [Nat.mod_add_mod, show iterInd + 1 + (size - 1) = iterInd + size by omega,
            Nat.add_mod_right, Nat.mod_eq_of_lt hi]
        obtain ⟨shares', h⟩ := ih units (size - 1) (hlen.trans hsize) hnextlt (by omega)
          ⟨cid, by rw [hround]; exact vectorAt_eq_ok.mp hcid, hlink⟩ (by omega)
        refine ⟨shares', cid, hcid, ?_⟩
        rw [if_pos hlink]
        simp only [bind_eq_ok]
        exact ⟨share, hshare, given, hgiven, h⟩
      · have hpos : 0 < dist := by
          by_contra hzero
          obtain rfl : dist = 0 := by omega
          obtain ⟨cid', hcid', hup'⟩ := hup
          rw [Nat.add_zero, Nat.mod_eq_of_lt hi] at hcid'
          rw [vectorAt_eq_ok, hcid'] at hcid
          obtain rfl := Option.some.inj hcid
          exact hlink hup'
        have hahead : ((iterInd + 1) % size + (dist - 1)) % size = (iterInd + dist) % size := by
          rw [Nat.mod_add_mod, show iterInd + 1 + (dist - 1) = iterInd + dist by omega]
        obtain ⟨shares', h⟩ := ih (units + 1) (dist - 1) hsize hnextlt (by omega)
          (by rw [hahead]; exact hup) (by rw [Nat.succ_mul]; omega)
        refine ⟨shares', cid, hcid, ?_⟩
        rw [if_neg hlink]
        exact h

theorem linkDownTsu_cases (h : linkDownTsu linkState s cid = .ok (s', d)) :
    s' = s ∧ (d = s.decision false ∨ s.lastSplittingIndexList = [] ∧
        d = { update := true
              splitIndexList :=
                shareOf s.splittingBurst linkState.defaultLinkCid linkState.cidList }) ∨
      ∃ failedLink share shares, s.lastSplittingIndexList ≠ [] ∧
        s.lastSplittingIndexList[failedLink]? = some share ∧
        distribute linkState ((share + 1) * s.lastSplittingIndexList.length)
          (s.lastSplittingIndexList.set failedLink 0) share 0 = .ok shares ∧
        checkSum { s with lastSplittingIndexList := shares } s.lastSplittingIndexList.length =
          .ok () ∧
        s' = { s with lastSplittingIndexList := shares } ∧ d = s'.decision true := by
  simp only [linkDownTsu] at h
  split_ifs at h with halg hempty hcid
  · cases pure_eq_ok.mp h
    exact .inl ⟨rfl, .inl rfl⟩
  · cases pure_eq_ok.mp h
    exact .inl ⟨rfl, .inr ⟨hempty, rfl⟩⟩
  · cases pure_eq_ok.mp h
    exact .inl ⟨rfl, .inl rfl⟩
  · cases hi : cidToIndex cid linkState.cidList with
    | none =>
      rw [hi] at h
      cases h
    | some failedLink =>
      rw [hi] at h
      simp only [bind_eq_ok, vectorAt_eq_ok] at h
      obtain ⟨share, hshare, h⟩ := h
      split_ifs at h with hzero
      · cases pure_eq_ok.mp h
        exact .inl ⟨rfl, .inl rfl⟩
      · simp only [bind_eq_ok] at h
        obtain ⟨up, -, h⟩ := h
        split_ifs at h
        · simp only [bind_eq_ok, vectorSet_eq_ok] at h
          obtain ⟨emptied, ⟨-, rfl⟩, shares, hshares, ⟨⟩, hcheck, heq⟩ := h
          cases pure_eq_ok.mp heq
          exact .inr ⟨failedLink, share, shares, hempty, hshare, hshares, hcheck, rfl, rfl⟩
        · cases pure_eq_ok.mp h
          exact .inl ⟨rfl, .inl rfl⟩

theorem linkDownTsu_conserved (h : linkDownTsu linkState s cid = .ok (s', d)) (hs : s.Conserved) :
    s'.Conserved ∧ s'.splittingBurst = s.splittingBurst ∧
      (s.lastSplittingIndexList ≠ [] → s'.lastSplittingIndexList ≠ []) := by
  rcases linkDownTsu_cases h with
    ⟨rfl, -⟩ | ⟨failedLink, share, shares, hne, hshare, hshares, -, rfl, -⟩
  · exact ⟨hs, rfl, id⟩
  · have hset := sum_set_add hshare 0
    have hsum := hs.sum hne
    have hlt := hs.burst
    obtain ⟨hsum', hlen⟩ := distribute_sum hshares (by omega)
    rw [List.length_set] at hlen
    refine ⟨⟨hs.burst, fun _ => ?_, ?_, fun hstable => ?_⟩, rfl, fun _ hnil => ?_⟩
    · show shares.sum = s.splittingBurst
      omega
    · exact hs.counters.trans hlen.symm
    · exact (hs.owds hstable).trans hlen.symm
    · have hnil' : shares = [] := hnil
      rw [hnil'] at hlen
      exact hne (List.eq_nil_of_length_eq_zero hlen.symm)

end LinkDown

section Total
variable {δ : Type} {A : DelayArith δ} {linkState : LinkState} {m : RxMeasurement δ}
  {s : GmaRxControl} {e : Extremes δ} {cid : Cid}

structure Ready (m : RxMeasurement δ) (s : GmaRxControl) : Prop where
  sized : Sized m
  pos : 0 < s.splittingBurst
  burst : s.splittingBurst < 256
  sum : s.lastSplittingIndexList.sum = s.splittingBurst
  length : s.lastSplittingIndexList.length = m.links
  counters : s.decreaseCounter.length = m.links
  owds : s.enableStableAlgorithm → s.lastOwd.length = m.links

theorem Ready.kept (h : Ready m s) {s' : GmaRxControl} (hk : Kept s s') : Ready m s' where
  sized := h.sized
  pos := hk.splittingBurst ▸ h.pos
  burst := hk.splittingBurst ▸ h.burst
  sum := by rw [hk.sum, hk.splittingBurst, h.sum]
  length := hk.length.trans h.length
  counters := hk.counters.trans h.counters
  owds hstable := hk.owds.trans (h.owds (hk.enableStableAlgorithm ▸ hstable))

theorem Ready.active (h : Ready m s) :
    Active s.lastSplittingIndexList (List.range m.links) := by
  by_contra hnone
  have hzero : s.lastSplittingIndexList.sum = 0 := by
    refine List.sum_eq_zero fun x hx => ?_
    by_contra hne
    obtain ⟨ind, hind⟩ := List.getElem?_of_mem hx
    have hlt : ind < m.links := h.length ▸ (List.getElem?_eq_some_iff.mp hind).1
    exact hnone ⟨ind, List.mem_range.mpr hlt, x, hind, hne⟩
  have := h.pos
  rw [← h.sum, hzero] at this
  exact absurd this (lt_irrefl 0)

def Extremes.Within (e : Extremes δ) (links : ℕ) : Prop := e.minIndex < links ∧ e.maxIndex < links

theorem initialExtremes_total (h : Ready m s) {inds : List ℕ} (hin : ∀ ind ∈ inds, ind < m.links)
    (hactive : Active s.lastSplittingIndexList inds) :
    ∃ e, initialExtremes m s.lastSplittingIndexList inds = .ok e ∧ Extremes.Within e m.links := by
  induction inds with
  | nil =>
    obtain ⟨ind, hind, -⟩ := hactive
    cases hind
  | cons ind inds ih =>
    have hlt := hin ind List.mem_cons_self
    obtain ⟨share, hshare⟩ := vectorAt_total (h.length.symm ▸ hlt)
    simp only [initialExtremes, bind_eq_ok]
    by_cases hzero : share = 0
    · obtain ⟨i, hi, x, hx, hne⟩ := hactive
      have hrest : Active s.lastSplittingIndexList inds := by
        rcases List.mem_cons.mp hi with rfl | hi
        · rw [vectorAt_eq_ok, hx] at hshare
          exact absurd ((Option.some.inj hshare).trans hzero) hne
        · exact ⟨i, hi, x, hx, hne⟩
      obtain ⟨e, he, hwithin⟩ := ih (fun i hi => hin i (List.mem_cons_of_mem _ hi)) hrest
      refine ⟨e, ⟨share, hshare, ?_⟩, hwithin⟩
      rwa [if_neg (not_not.mpr hzero)]
    · obtain ⟨delay, hdelay⟩ := vectorAt_total (h.sized.delayList.symm ▸ hlt)
      refine ⟨⟨delay, ind, delay, ind⟩, ⟨share, hshare, ?_⟩, hlt, hlt⟩
      rw [if_pos hzero, bind_eq_ok]
      exact ⟨delay, hdelay, rfl⟩

theorem extremesTurn_total (h : Ready m s) (he : Extremes.Within e m.links) {ind : ℕ}
    (hlt : ind < m.links) :
    ∃ e', extremesTurn A linkState m s.lastSplittingIndexList e ind = .ok e' ∧
      Extremes.Within e' m.links := by
  obtain ⟨cid, hcid⟩ := vectorAt_total (h.sized.cidList.symm ▸ hlt)
  simp only [extremesTurn, bind_eq_ok]
  by_cases hup : linkState.isLinkUp cid
  · obtain ⟨delay, hdelay⟩ := vectorAt_total (h.sized.delayList.symm ▸ hlt)
    obtain ⟨share, hshare⟩ := vectorAt_total (h.length.symm ▸ hlt)
    set e₁ := if A.lt delay e.minDelay then { e with minDelay := delay, minIndex := ind } else e
      with he₁
    have hwithin : Extremes.Within e₁ m.links := by
      rw [he₁]
      split_ifs
      · exact ⟨hlt, he.2⟩
      · exact he
    by_cases hmax : A.lt e₁.maxDelay delay
    · refine ⟨if share ≠ 0 then { e₁ with maxDelay := delay, maxIndex := ind } else e₁,
        ⟨cid, hcid, ?_⟩, ?_⟩
      · rw [if_pos hup, bind_eq_ok]
        refine ⟨delay, hdelay, ?_⟩
        rw [if_pos hmax, bind_eq_ok]
        exact ⟨share, hshare, rfl⟩
      · split_ifs
        · exact ⟨hwithin.1, hlt⟩
        · exact hwithin
    · refine ⟨e₁, ⟨cid, hcid, ?_⟩, hwithin⟩
      rw [if_pos hup, bind_eq_ok]
      refine ⟨delay, hdelay, ?_⟩
      rw [if_neg hmax]
      rfl
  · refine ⟨e, ⟨cid, hcid, ?_⟩, he⟩
    rw [if_neg hup]
    rfl

theorem findExtremes_total (h : Ready m s) :
    ∃ e, findExtremes A linkState m s.lastSplittingIndexList = .ok e ∧
      Extremes.Within e m.links := by
  have hin : ∀ ind ∈ List.range m.links, ind < m.links := fun _ => List.mem_range.mp
  obtain ⟨e, he, hwithin⟩ := initialExtremes_total h hin h.active
  obtain ⟨e', he', hwithin'⟩ := foldlM_range_total
    (fun e ind hlt he => extremesTurn_total (A := A) h he hlt) hwithin
  refine ⟨e', ?_, hwithin'⟩
  rw [findExtremes, bind_eq_ok]
  exact ⟨e, he, he'⟩

theorem moveByDelay_total (h : Ready m s) (he : Extremes.Within e m.links) :
    ∃ s', moveByDelay s e = .ok s' := by
  have hmax : e.maxIndex < s.lastSplittingIndexList.length := h.length.symm ▸ he.2
  have hmin : e.minIndex < s.lastSplittingIndexList.length := h.length.symm ▸ he.1
  simp only [moveByDelay]
  split_ifs
  · have hcount : e.maxIndex < (s.countDecrease e.maxIndex).length := by
      rw [countDecrease_length, h.counters]
      exact he.2
    obtain ⟨counter, hcounter⟩ := vectorAt_total hcount
    obtain ⟨share, hshare⟩ := vectorAt_total hmax
    obtain ⟨shares, hmove⟩ := moveUnits_total hmax hmin (min (max (counter - stepThresh) 1) share)
    exact ⟨_, bind_eq_ok.mpr ⟨counter, hcounter, bind_eq_ok.mpr ⟨share, hshare,
      bind_eq_ok.mpr ⟨shares, hmove, rfl⟩⟩⟩⟩
  · obtain ⟨shares, hmove⟩ := moveUnits_total hmax hmin 1
    exact ⟨_, bind_eq_ok.mpr ⟨shares, hmove, rfl⟩⟩

theorem notDecreasing_total (h : Ready m s) {ind : ℕ} (hlt : ind < m.links) :
    ∃ b, notDecreasing A m s ind = .ok b := by
  simp only [notDecreasing]
  split_ifs with hstable
  · obtain ⟨owd, howd⟩ := vectorAt_total ((h.owds hstable).symm ▸ hlt)
    obtain ⟨delay, hdelay⟩ := vectorAt_total (h.sized.delayList.symm ▸ hlt)
    exact ⟨_, bind_eq_ok.mpr ⟨owd, howd, bind_eq_ok.mpr ⟨delay, hdelay, rfl⟩⟩⟩
  · exact ⟨true, rfl⟩

theorem delayStep_total (h : Ready m s) (he : Extremes.Within e m.links) :
    ∃ r, delayStep A m s e = .ok r := by
  simp only [delayStep]
  split_ifs
  · obtain ⟨b, hb⟩ := notDecreasing_total (A := A) h he.2
    obtain ⟨share, hshare⟩ := vectorAt_total (h.length.symm ▸ he.2)
    obtain ⟨s', hmove⟩ := moveByDelay_total h he
    cases b with
    | false => exact ⟨_, bind_eq_ok.mpr ⟨false, hb, rfl⟩⟩
    | true =>
      by_cases hpos : share > 0
      · refine ⟨(s', true), bind_eq_ok.mpr ⟨true, hb, bind_eq_ok.mpr ⟨share, hshare, ?_⟩⟩⟩
        rw [if_pos hpos]
        exact bind_eq_ok.mpr ⟨s', hmove, rfl⟩
      · refine ⟨(s, false), bind_eq_ok.mpr ⟨true, hb, bind_eq_ok.mpr ⟨share, hshare, ?_⟩⟩⟩
        rw [if_neg hpos]
        rfl
  · exact ⟨_, rfl⟩

theorem saveOwd_total (h : Ready m s) : ∃ s', saveOwd A m s = .ok s' := by
  simp only [saveOwd]
  split_ifs with hstable
  · have hturn : ∀ (v : List ℤ) ind, ind < m.links → v.length = m.links →
        ∃ w, owdTurn A m v ind = .ok w ∧ w.length = m.links := by
      intro v ind hlt hv
      obtain ⟨delay, hdelay⟩ := vectorAt_total (h.sized.delayList.symm ▸ hlt)
      obtain ⟨w, hw, hlen⟩ := vectorSet_total (hv.symm ▸ hlt) (A.toInt delay)
      exact ⟨w, bind_eq_ok.mpr ⟨delay, hdelay, hw⟩, hlen.trans hv⟩
    obtain ⟨lastOwd, hfold, -⟩ := foldlM_range_total hturn (h.owds hstable)
    exact ⟨_, bind_eq_ok.mpr ⟨lastOwd, hfold, rfl⟩⟩
  · exact ⟨s, rfl⟩

def LossExtremes.Within (e : LossExtremes δ) (links : ℕ) : Prop :=
  e.minLossInd < links ∧ e.maxLossInd < links

theorem lossTurn_total (h : Ready m s) {e : LossExtremes δ} (he : LossExtremes.Within e m.links)
    {ind : ℕ} (hlt : ind < m.links) :
    ∃ e', lossTurn A linkState m s.lastSplittingIndexList e ind = .ok e' ∧
      LossExtremes.Within e' m.links := by
  obtain ⟨cid, hcid⟩ := vectorAt_total (h.sized.cidList.symm ▸ hlt)
  by_cases hup : linkState.isLinkUp cid
  · obtain ⟨loss, hloss⟩ := vectorAt_total (h.sized.lossRateList.symm ▸ hlt)
    obtain ⟨share, hshare⟩ := vectorAt_total (h.length.symm ▸ hlt)
    simp only [lossTurn, bind_eq_ok]
    by_cases hfirst : e.initialLoss
    · set e₁ := if A.lt loss e.minLoss then { e with minLoss := loss, minLossInd := ind } else e
        with he₁
      have hwithin : LossExtremes.Within e₁ m.links := by
        rw [he₁]
        split_ifs
        · exact ⟨hlt, he.2⟩
        · exact he
      by_cases hmax : A.lt e₁.maxLoss loss
      · refine ⟨if share ≠ 0 then { e₁ with maxLoss := loss, maxLossInd := ind } else e₁,
          ⟨cid, hcid, ?_⟩, ?_⟩
        · rw [if_pos hup, bind_eq_ok]
          refine ⟨loss, hloss, ?_⟩
          rw [if_neg (not_not.mpr hfirst), if_pos hmax, bind_eq_ok]
          exact ⟨share, hshare, rfl⟩
        · split_ifs
          · exact ⟨hwithin.1, hlt⟩
          · exact hwithin
      · refine ⟨e₁, ⟨cid, hcid, ?_⟩, hwithin⟩
        rw [if_pos hup, bind_eq_ok]
        refine ⟨loss, hloss, ?_⟩
        rw [if_neg (not_not.mpr hfirst), if_neg hmax]
        rfl
    · refine ⟨⟨true, loss, ind, loss, ind⟩, ⟨cid, hcid, ?_⟩, hlt, hlt⟩
      rw [if_pos hup, bind_eq_ok]
      refine ⟨loss, hloss, ?_⟩
      rw [if_pos hfirst]
      rfl
  · refine ⟨e, bind_eq_ok.mpr ⟨cid, hcid, ?_⟩, he⟩
    rw [if_neg hup]
    rfl

theorem steerTurn_total (h : Ready m s) {splittingBurst : ℕ} {v : List ℕ × Bool}
    (hv : v.1.length = m.links) {ind : ℕ} (hlt : ind < m.links) :
    ∃ w, steerTurn linkState m splittingBurst v ind = .ok w ∧ w.1.length = m.links := by
  obtain ⟨cid, hcid⟩ := vectorAt_total (h.sized.cidList.symm ▸ hlt)
  obtain ⟨full, hfull, hfullLen⟩ := vectorSet_total (hv.symm ▸ hlt) splittingBurst
  obtain ⟨none, hnone, hnoneLen⟩ := vectorSet_total (hv.symm ▸ hlt) 0
  by_cases hdef : cid = linkState.defaultLinkCid
  · refine ⟨(full, true), bind_eq_ok.mpr ⟨cid, hcid, ?_⟩, hfullLen.trans hv⟩
    rw [if_pos hdef]
    exact bind_eq_ok.mpr ⟨full, hfull, rfl⟩
  · refine ⟨(none, v.2), bind_eq_ok.mpr ⟨cid, hcid, ?_⟩, hnoneLen.trans hv⟩
    rw [if_neg hdef]
    exact bind_eq_ok.mpr ⟨none, hnone, rfl⟩

structure Covers (linkState : LinkState) (m : RxMeasurement δ) : Prop where
  sizes : checkSizes m = .ok ()
  cidList : m.cidList = linkState.cidList
  nodup : m.cidList.Nodup
  default : linkState.defaultLinkCid ∈ linkState.cidList

theorem steerToDefault_total (h : Ready m s) (hc : Covers linkState m) :
    ∃ r, steerToDefault linkState m s e = .ok r := by
  simp only [steerToDefault]
  split_ifs
  · obtain ⟨index, hindex⟩ := cidToIndex_isSome hc.default
    have hlt : index < m.links := by
      rw [← h.sized.cidList, hc.cidList]
      exact (List.getElem?_eq_some_iff.mp (cidToIndex_eq_some hindex)).1
    obtain ⟨share, hshare⟩ := vectorAt_total (h.length.symm ▸ hlt)
    rw [hindex]
    by_cases hall : share = s.splittingBurst
    · refine ⟨(s, false), bind_eq_ok.mpr ⟨share, hshare, ?_⟩⟩
      rw [if_pos hall]
      rfl
    · have hturn : ∀ (v : List ℕ × Bool) ind, ind < m.links → v.1.length = m.links →
          ∃ w, steerTurn linkState m s.splittingBurst v ind = .ok w ∧ w.1.length = m.links :=
        fun v ind hlt hv => steerTurn_total h hv hlt
      obtain ⟨v, hv, -⟩ := foldlM_range_total hturn
        (show (s.lastSplittingIndexList, false).1.length = m.links from h.length)
      have hflag : v.2 := by
        refine (steerTurn_fold hv).2.2.2.mpr ?_
        rw [← h.sized.cidList, List.take_length, hc.cidList]
        exact hc.default
      refine ⟨({ s with lastSplittingIndexList := v.1 }, true),
        bind_eq_ok.mpr ⟨share, hshare, ?_⟩⟩
      rw [if_neg hall]
      refine bind_eq_ok.mpr ⟨v, hv, ?_⟩
      rw [if_pos hflag]
      rfl
  · exact ⟨_, rfl⟩

theorem lossStep_total (h : Ready m s) (hc : Covers linkState m) :
    ∃ r, lossStep A linkState m s e = .ok r := by
  have hpos : 0 < m.links := Nat.pos_of_ne_zero h.sized.links
  obtain ⟨l, hl, hwithin⟩ := foldlM_range_total
    (fun e ind hlt he => lossTurn_total (A := A) h he hlt)
    (show LossExtremes.Within ⟨false, A.zero, 0, A.zero, 0⟩ m.links from ⟨hpos, hpos⟩)
  obtain ⟨share, hshare⟩ := vectorAt_total (h.length.symm ▸ hwithin.2)
  obtain ⟨shares, hmove⟩ := moveUnits_total (h.length.symm ▸ hwithin.2)
    (h.length.symm ▸ hwithin.1) 1
  obtain ⟨r, hr⟩ := steerToDefault_total (e := e) h hc
  simp only [lossStep]
  by_cases hloss : A.lossier l.maxLoss l.minLoss
  · by_cases hgive : share > 0
    · refine ⟨({ s with lastSplittingIndexList := shares }, true),
        bind_eq_ok.mpr ⟨l, hl, ?_⟩⟩
      rw [if_pos hloss]
      refine bind_eq_ok.mpr ⟨share, hshare, ?_⟩
      rw [if_pos hgive]
      exact bind_eq_ok.mpr ⟨shares, hmove, rfl⟩
    · refine ⟨(s, false), bind_eq_ok.mpr ⟨l, hl, ?_⟩⟩
      rw [if_pos hloss]
      refine bind_eq_ok.mpr ⟨share, hshare, ?_⟩
      rw [if_neg hgive]
      rfl
  · refine ⟨r, bind_eq_ok.mpr ⟨l, hl, ?_⟩⟩
    rwa [if_neg hloss]

theorem checkSum_total {links : ℕ} (hlen : s.lastSplittingIndexList.length = links)
    (hsum : s.lastSplittingIndexList.sum = s.splittingBurst) (hlt : s.splittingBurst < 256) :
    checkSum s links = .ok () := by
  refine bind_eq_ok.mpr ⟨s.splittingBurst, ?_, if_pos rfl⟩
  rw [sumRatio_eq hlen.ge, ← hlen, List.take_length, hsum, Nat.mod_eq_of_lt hlt]

def Matches (linkState : LinkState) (s : GmaRxControl) : Prop :=
  s.lastSplittingIndexList = [] ∨ s.lastSplittingIndexList.length = linkState.cidList.length

theorem initSplitting_ready (hs : s.Conserved) (hpos : 0 < s.splittingBurst)
    (hc : Covers linkState m) (hmatch : Matches linkState s) :
    Ready m (initSplitting A linkState m s) := by
  have hm := sized_of_checkSizes hc.sizes
  have hstart : (initSplitting A linkState m s).Started :=
    initSplitting_started hs.started hm hc.nodup
  have hlen : (initSplitting A linkState m s).lastSplittingIndexList.length = m.links := by
    by_cases hempty : s.lastSplittingIndexList = []
    · rw [initSplitting_of_nil hempty]
      exact (List.length_map _).trans hm.cidList
    · rw [initSplitting_of_ne_nil hempty, hmatch.resolve_left hempty, ← hc.cidList, hm.cidList]
  have hsum : (initSplitting A linkState m s).lastSplittingIndexList.sum =
      (initSplitting A linkState m s).splittingBurst := by
    by_cases hempty : s.lastSplittingIndexList = []
    · rw [initSplitting_of_nil hempty]
      exact shareOf_sum hc.nodup (hc.cidList ▸ hc.default)
    · rw [initSplitting_of_ne_nil hempty]
      exact hs.sum hempty
  refine ⟨hm, ?_, hstart.burst, hsum, hlen, hstart.counters.trans hlen, fun hstable => ?_⟩
  · rwa [initSplitting_splittingBurst]
  · exact (hstart.owds hstable).trans hlen

theorem delayAlgorithm_total (h : Ready m (initSplitting A linkState m s))
    (hc : Covers linkState m) : ∃ r, delayAlgorithm A linkState m s = .ok r := by
  obtain ⟨e, he, hwithin⟩ : ∃ e, findExtremes A linkState m _ = .ok e ∧ _ := findExtremes_total h
  obtain ⟨⟨s₁, moved⟩, h₁⟩ := delayStep_total (A := A) h hwithin
  obtain ⟨hk₁, hsame⟩ := delayStep_kept h₁ (h.sum ▸ h.burst)
  have hr₁ := h.kept hk₁
  obtain ⟨s₂, h₂⟩ := saveOwd_total (A := A) hr₁
  have hr₂ := hr₁.kept (saveOwd_kept h₂).1
  obtain ⟨⟨s₃, update⟩, h₃⟩ : ∃ r, compareLoss A linkState m s₂ e moved = .ok r := by
    simp only [compareLoss]
    split_ifs
    · exact lossStep_total hr₂ hc
    · exact ⟨_, rfl⟩
  have hr₃ := hr₂.kept (compareLoss_kept h₃ hc.nodup hr₂.sum hr₂.burst fun _ => hr₂.active)
  have hsum := checkSum_total hr₃.length hr₃.sum hr₃.burst
  exact ⟨(s₃, s₃.decision update), bind_eq_ok.mpr ⟨e, he, bind_eq_ok.mpr ⟨(s₁, moved), h₁,
    bind_eq_ok.mpr ⟨s₂, h₂, bind_eq_ok.mpr ⟨(s₃, update), h₃,
      bind_eq_ok.mpr ⟨(), hsum, rfl⟩⟩⟩⟩⟩⟩

theorem congDelayAlgorithm_total (h : Ready m (initSplitting A linkState m s))
    (hc : Covers linkState m) : ∃ r, congDelayAlgorithm A linkState m s = .ok r := by
  have hagain : initSplitting A linkState m (initSplitting A linkState m s) =
      initSplitting A linkState m s := initSplitting_of_ne_nil (initSplitting_ne_nil h.sized)
  obtain ⟨r, hr⟩ := delayAlgorithm_total (s := initSplitting A linkState m s) (hagain.symm ▸ h) hc
  obtain ⟨index, hindex⟩ := cidToIndex_isSome hc.default
  have hlt : index < m.links := by
    rw [← h.sized.cidList, hc.cidList]
    exact (List.getElem?_eq_some_iff.mp (cidToIndex_eq_some hindex)).1
  obtain ⟨share, hshare⟩ := vectorAt_total (h.length.symm ▸ hlt)
  obtain ⟨loss, hloss⟩ := vectorAt_total
    (h.sized.lossRateList.symm ▸ Nat.pos_of_ne_zero h.sized.links)
  simp only [congDelayAlgorithm, hindex, Option.getD_some]
  by_cases hall : share = (initSplitting A linkState m s).splittingBurst
  · by_cases hlossy : A.lossy loss
    · refine ⟨r, bind_eq_ok.mpr ⟨share, hshare, ?_⟩⟩
      rw [if_pos hall]
      refine bind_eq_ok.mpr ⟨loss, hloss, ?_⟩
      rwa [if_pos hlossy]
    · refine ⟨(initSplitting A linkState m s, {}), bind_eq_ok.mpr ⟨share, hshare, ?_⟩⟩
      rw [if_pos hall]
      refine bind_eq_ok.mpr ⟨loss, hloss, ?_⟩
      rw [if_neg hlossy]
      rfl
  · refine ⟨r, bind_eq_ok.mpr ⟨share, hshare, ?_⟩⟩
    rwa [if_neg hall]

theorem linkDownTsu_total (hs : s.Conserved) (hn : linkState.cidList.Nodup)
    (hmatch : Matches linkState s) (hcid : cid ∈ linkState.cidList) :
    ∃ r, linkDownTsu linkState s cid = .ok r := by
  simp only [linkDownTsu]
  split_ifs with halg hempty hdef
  · exact ⟨_, rfl⟩
  · exact ⟨_, rfl⟩
  · exact ⟨_, rfl⟩
  · have hlen := hmatch.resolve_left hempty
    obtain ⟨failedLink, hfailed⟩ := cidToIndex_isSome hcid
    have hlt : failedLink < s.lastSplittingIndexList.length := by
      rw [hlen]
      exact (List.getElem?_eq_some_iff.mp (cidToIndex_eq_some hfailed)).1
    obtain ⟨share, hshare⟩ := vectorAt_total hlt
    rw [hfailed]
    by_cases hzero : share = 0
    · refine ⟨(s, s.decision false), bind_eq_ok.mpr ⟨share, hshare, ?_⟩⟩
      rw [if_pos hzero]
      rfl
    · obtain ⟨up, hup⟩ : ∃ up, anyLinkUp linkState
          (List.range s.lastSplittingIndexList.length) = .ok up :=
        anyLinkUp_total fun ind hind => hlen ▸ List.mem_range.mp hind
      cases up with
      | false =>
        refine ⟨(s, s.decision false), bind_eq_ok.mpr ⟨share, hshare, ?_⟩⟩
        rw [if_neg hzero]
        exact bind_eq_ok.mpr ⟨false, hup, rfl⟩
      | true =>
        obtain ⟨emptied, hemptied, hemptiedLen⟩ := vectorSet_total hlt 0
        obtain ⟨-, hset⟩ := vectorSet_eq_ok.mp hemptied
        obtain ⟨dist, hdist, linkUp⟩ := anyLinkUp_up hup
        have hdist' := List.mem_range.mp hdist
        have hbyte : s.lastSplittingIndexList.length ≤ 256 := by
          rw [hlen]
          simpa using hn.length_le_card
        obtain ⟨shares, hshares⟩ : ∃ shares, distribute linkState
            ((share + 1) * s.lastSplittingIndexList.length) emptied share 0 = .ok shares := by
          refine distribute_total share dist hemptiedLen hlen.le hbyte (by omega) hdist' ?_ ?_
          · rwa [Nat.zero_add, Nat.mod_eq_of_lt hdist']
          · rw [Nat.succ_mul]
            omega
        have hsum₀ := sum_set_add (vectorAt_eq_ok.mp hshare) 0
        have hsum := hs.sum hempty
        have hlt256 := hs.burst
        rw [← hset] at hsum₀
        obtain ⟨hsum', hlen'⟩ := distribute_sum hshares (by omega)
        have hcheck : checkSum { s with lastSplittingIndexList := shares }
            s.lastSplittingIndexList.length = .ok () :=
          checkSum_total (hlen'.trans hemptiedLen) (show shares.sum = s.splittingBurst by omega)
            hlt256
        refine ⟨({ s with lastSplittingIndexList := shares },
          decision { s with lastSplittingIndexList := shares } true),
          bind_eq_ok.mpr ⟨share, hshare, ?_⟩⟩
        rw [if_neg hzero]
        refine bind_eq_ok.mpr ⟨true, hup, ?_⟩
        exact bind_eq_ok.mpr ⟨emptied, hemptied, bind_eq_ok.mpr ⟨shares, hshares,
          bind_eq_ok.mpr ⟨(), hcheck, rfl⟩⟩⟩

end Total

end GmaRxControl
end NetGymSim.Gma

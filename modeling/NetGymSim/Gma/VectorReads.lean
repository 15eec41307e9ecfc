import NetGymSim.Gma.BurstSums
import NetGymSim.Lib.ExceptFold

/-!
# Reads of the per-link vectors

`RxControl` reads its vectors with `at`, at the positions of links. When the vectors have an entry
for each measured link every read is in range, and the vectors keep their length, whatever else a
decision does and even when it ends in a failed assertion.
-/

namespace NetGymSim.Gma
open NetGymSim.Lib

abbrev InRange {α : Type} (Q : α → Prop) (x : Except RxFault α) : Prop :=
  Yields RxFault.outOfRange Q x

section Vectors
variable {α : Type} {v : List α} {ind : ℕ}

theorem vectorAt_inRange (h : ind < v.length) :
    InRange (fun a => v[ind]? = some a) (vectorAt v ind) := by
  obtain ⟨a, ha⟩ := vectorAt_total h
  rw [ha]
  exact vectorAt_eq_ok.mp ha

theorem vectorSet_inRange (h : ind < v.length) (a : α) :
    InRange (fun w => w.length = v.length) (vectorSet v ind a) := by
  obtain ⟨w, hw, hlen⟩ := vectorSet_total h a
  rw [hw]
  exact hlen

end Vectors

namespace GmaRxControl

/-- The lengths of the vectors and the settings are the same. -/
structure Shaped (s s' : GmaRxControl) : Prop where
  length : s'.lastSplittingIndexList.length = s.lastSplittingIndexList.length
  counters : s'.decreaseCounter.length = s.decreaseCounter.length
  owds : s'.lastOwd.length = s.lastOwd.length
  algorithm : s'.algorithm = s.algorithm
  burst : s'.splittingBurst = s.splittingBurst
  stable : s'.enableStableAlgorithm = s.enableStableAlgorithm

structure Ranged (links : ℕ) (s : GmaRxControl) : Prop where
  length : s.lastSplittingIndexList.length = links
  counters : s.decreaseCounter.length = links
  owds : s.enableStableAlgorithm → s.lastOwd.length = links

section Delay
variable {δ : Type} {A : DelayArith δ} {linkState : LinkState} {m : RxMeasurement δ}
  {s s' s'' : GmaRxControl} {e : Extremes δ} {shares : List ℕ} {ind : ℕ}

theorem Shaped.refl (s : GmaRxControl) : Shaped s s := ⟨rfl, rfl, rfl, rfl, rfl, rfl⟩

theorem Shaped.trans (h : Shaped s s') (h' : Shaped s' s'') : Shaped s s'' where
  length := h'.length.trans h.length
  counters := h'.counters.trans h.counters
  owds := h'.owds.trans h.owds
  algorithm := h'.algorithm.trans h.algorithm
  burst := h'.burst.trans h.burst
  stable := h'.stable.trans h.stable

theorem Shaped.setShares (h : shares.length = s.lastSplittingIndexList.length) :
    Shaped s { s with lastSplittingIndexList := shares } := ⟨h, rfl, rfl, rfl, rfl, rfl⟩

theorem Ranged.shaped {links : ℕ} (h : Ranged links s) (hs : Shaped s s') : Ranged links s' where
  length := hs.length.trans h.length
  counters := hs.counters.trans h.counters
  owds hstable := hs.owds.trans (h.owds (hs.stable ▸ hstable))

theorem initialExtremes_inRange {inds : List ℕ} (hm : Sized m) (hlen : shares.length = m.links)
    (hin : ∀ ind ∈ inds, ind < m.links) :
    InRange (fun e => Extremes.Within e m.links) (initialExtremes m shares inds) := by
  induction inds with
  | nil => exact Yields.error (by decide)
  | cons ind inds ih =>
    have hlt := hin ind List.mem_cons_self
    unfold initialExtremes
    refine (vectorAt_inRange (hlen.symm ▸ hlt)).bind fun share _ => ?_
    split_ifs
    · refine (vectorAt_inRange (hm.delayList.symm ▸ hlt)).bind fun delay _ => ?_
      exact Yields.pure ⟨hlt, hlt⟩
    · exact ih fun ind hind => hin ind (List.mem_cons_of_mem _ hind)

theorem extremesTurn_inRange (hm : Sized m) (hlen : shares.length = m.links)
    (hlt : ind < m.links) (he : Extremes.Within e m.links) :
    InRange (fun e => Extremes.Within e m.links) (extremesTurn A linkState m shares e ind) := by
  unfold extremesTurn
  refine (vectorAt_inRange (hm.cidList.symm ▸ hlt)).bind fun cid _ => ?_
  split_ifs
  · refine (vectorAt_inRange (hm.delayList.symm ▸ hlt)).bind fun delay _ => ?_
    have hmin : Extremes.Within (if A.lt delay e.minDelay then
        { e with minDelay := delay, minIndex := ind } else e) m.links := by
      split_ifs
      · exact ⟨hlt, he.2⟩
      · exact he
    generalize (if A.lt delay e.minDelay then
      { e with minDelay := delay, minIndex := ind } else e) = e₁ at hmin
    dsimp only
    split_ifs
    · refine (vectorAt_inRange (hlen.symm ▸ hlt)).bind fun share _ => ?_
      split_ifs
      · exact Yields.pure ⟨hmin.1, hlt⟩
      · exact Yields.pure hmin
    · exact Yields.pure hmin
  · exact Yields.pure he

theorem findExtremes_inRange (hm : Sized m) (hlen : shares.length = m.links) :
    InRange (fun e => Extremes.Within e m.links) (findExtremes A linkState m shares) := by
  unfold findExtremes
  refine (initialExtremes_inRange hm hlen fun _ => List.mem_range.mp).bind fun e he => ?_
  exact Yields.foldlM (fun e ind hind he =>
    extremesTurn_inRange hm hlen (List.mem_range.mp hind) he) he

theorem moveUnits_inRange {src dst : ℕ} (hsrc : src < shares.length) (hdst : dst < shares.length)
    (step : ℕ) :
    InRange (fun shares' => shares'.length = shares.length) (moveUnits shares src dst step) := by
  unfold moveUnits
  refine (vectorAt_inRange hsrc).bind fun x _ => ?_
  refine (vectorSet_inRange hsrc _).bind fun given hgiven => ?_
  refine (vectorAt_inRange (hgiven.symm ▸ hdst)).bind fun y _ => ?_
  exact (vectorSet_inRange (hgiven.symm ▸ hdst) _).mono fun taken htaken => htaken.trans hgiven

theorem moveByDelay_inRange {links : ℕ} (h : Ranged links s) (he : Extremes.Within e links) :
    InRange (Shaped s) (moveByDelay s e) := by
  have hmax : e.maxIndex < s.lastSplittingIndexList.length := h.length.symm ▸ he.2
  have hmin : e.minIndex < s.lastSplittingIndexList.length := h.length.symm ▸ he.1
  unfold moveByDelay
  split_ifs
  · have hcount := s.countDecrease_length e.maxIndex
    refine (vectorAt_inRange (by rw [hcount, h.counters]; exact he.2)).bind fun counter _ => ?_
    refine (vectorAt_inRange hmax).bind fun share _ => ?_
    refine (moveUnits_inRange hmax hmin _).bind fun shares hlen => ?_
    exact Yields.pure ⟨hlen, hcount, rfl, rfl, rfl, rfl⟩
  · exact (moveUnits_inRange hmax hmin _).bind fun shares hlen =>
      Yields.pure (Shaped.setShares hlen)

theorem notDecreasing_inRange (hm : Sized m) (h : Ranged m.links s) (hlt : ind < m.links) :
    InRange (fun _ => True) (notDecreasing A m s ind) := by
  unfold notDecreasing
  split_ifs with hstable
  · refine (vectorAt_inRange ((h.owds hstable).symm ▸ hlt)).bind fun owd _ => ?_
    exact (vectorAt_inRange (hm.delayList.symm ▸ hlt)).bind fun _ _ => Yields.pure trivial
  · exact Yields.pure trivial

theorem delayStep_inRange (hm : Sized m) (h : Ranged m.links s) (he : Extremes.Within e m.links) :
    InRange (fun r => Shaped s r.1) (delayStep A m s e) := by
  unfold delayStep
  split_ifs
  · refine (notDecreasing_inRange hm h he.2).bind fun steady _ => ?_
    split_ifs
    · refine (vectorAt_inRange (h.length.symm ▸ he.2)).bind fun share _ => ?_
      split_ifs
      · exact (moveByDelay_inRange h he).bind fun s' hs' => Yields.pure hs'
      · exact Yields.pure (Shaped.refl s)
    · exact Yields.pure (Shaped.refl s)
  · exact Yields.pure ⟨rfl, List.length_map _, rfl, rfl, rfl, rfl⟩

theorem saveOwd_inRange (hm : Sized m) (h : Ranged m.links s) :
    InRange (Shaped s) (saveOwd A m s) := by
  unfold saveOwd
  split_ifs with hstable
  · have hfold : InRange (fun lastOwd => lastOwd.length = m.links)
        ((List.range m.links).foldlM (owdTurn A m) s.lastOwd) := by
      refine Yields.foldlM (fun lastOwd ind hind hlen => ?_) (h.owds hstable)
      have hlt : ind < m.links := List.mem_range.mp hind
      unfold owdTurn
      refine (vectorAt_inRange (hm.delayList.symm ▸ hlt)).bind fun delay _ => ?_
      exact (vectorSet_inRange (hlen.symm ▸ hlt) _).mono fun w hw => hw.trans hlen
    refine hfold.bind fun lastOwd hlen => Yields.pure ?_
    exact ⟨rfl, rfl, hlen.trans (h.owds hstable).symm, rfl, rfl, rfl⟩
  · exact Yields.pure (Shaped.refl s)

theorem lossTurn_inRange (hm : Sized m) (hlen : shares.length = m.links) (hlt : ind < m.links)
    {l : LossExtremes δ} (hl : LossExtremes.Within l m.links) :
    InRange (fun l => LossExtremes.Within l m.links) (lossTurn A linkState m shares l ind) := by
  unfold lossTurn
  refine (vectorAt_inRange (hm.cidList.symm ▸ hlt)).bind fun cid _ => ?_
  by_cases hup : linkState.isLinkUp cid
  · rw [if_pos hup]
    refine (vectorAt_inRange (hm.lossRateList.symm ▸ hlt)).bind fun loss _ => ?_
    by_cases hfirst : l.initialLoss
    · have hmin : LossExtremes.Within (if A.lt loss l.minLoss then
          { l with minLoss := loss, minLossInd := ind } else l) m.links := by
        split_ifs
        · exact ⟨hlt, hl.2⟩
        · exact hl
      rw [if_neg (not_not.mpr hfirst)]
      generalize (if A.lt loss l.minLoss then
        { l with minLoss := loss, minLossInd := ind } else l) = l₁ at hmin
      dsimp only
      split_ifs
      · refine (vectorAt_inRange (hlen.symm ▸ hlt)).bind fun share _ => ?_
        split_ifs
        · exact Yields.pure ⟨hmin.1, hlt⟩
        · exact Yields.pure hmin
      · exact Yields.pure hmin
    · rw [if_pos hfirst]
      exact Yields.pure ⟨hlt, hlt⟩
  · rw [if_neg hup]
    exact Yields.pure hl

theorem steerTurn_inRange (hm : Sized m) {splittingBurst : ℕ} {v : List ℕ × Bool}
    (hv : v.1.length = m.links) (hlt : ind < m.links) :
    InRange (fun w => w.1.length = m.links) (steerTurn linkState m splittingBurst v ind) := by
  unfold steerTurn
  refine (vectorAt_inRange (hm.cidList.symm ▸ hlt)).bind fun cid _ => ?_
  split_ifs
  · refine (vectorSet_inRange (hv.symm ▸ hlt) _).bind fun w hw => ?_
    exact Yields.pure (hw.trans hv)
  · refine (vectorSet_inRange (hv.symm ▸ hlt) _).bind fun w hw => ?_
    exact Yields.pure (hw.trans hv)

theorem cidToIndex_lt {cid : Cid} {links : ℕ} (h : cidToIndex cid linkState.cidList = some ind)
    (hcids : linkState.cidList.length = links) : ind < links :=
  hcids ▸ (List.getElem?_eq_some_iff.mp (cidToIndex_eq_some h)).1

theorem steerToDefault_inRange (hm : Sized m) (hcids : linkState.cidList.length = m.links)
    (hlen : s.lastSplittingIndexList.length = m.links) :
    InRange (fun r => Shaped s r.1) (steerToDefault linkState m s e) := by
  unfold steerToDefault
  split_ifs
  · cases hindex : cidToIndex linkState.defaultLinkCid linkState.cidList with
    | none => exact Yields.error (by decide)
    | some index =>
      dsimp only
      refine (vectorAt_inRange (hlen.symm ▸ cidToIndex_lt hindex hcids)).bind fun share _ => ?_
      split_ifs
      · exact Yields.pure (Shaped.refl s)
      · have hfold : InRange (fun v => v.1.length = m.links)
            ((List.range m.links).foldlM (steerTurn linkState m s.splittingBurst)
              (s.lastSplittingIndexList, false)) :=
          Yields.foldlM (fun v ind hind hv => steerTurn_inRange hm hv (List.mem_range.mp hind)) hlen
        refine hfold.bind fun v hv => ?_
        split_ifs
        · exact Yields.pure (Shaped.setShares (hv.trans hlen.symm))
        · exact Yields.error (by decide)
  · exact Yields.pure (Shaped.refl s)

theorem lossStep_inRange (hm : Sized m) (hcids : linkState.cidList.length = m.links)
    (hlen : s.lastSplittingIndexList.length = m.links) :
    InRange (fun r => Shaped s r.1) (lossStep A linkState m s e) := by
  have hpos : 0 < m.links := Nat.pos_of_ne_zero hm.links
  have hfold : InRange (fun l => LossExtremes.Within l m.links)
      ((List.range m.links).foldlM (lossTurn A linkState m s.lastSplittingIndexList)
        ⟨false, A.zero, 0, A.zero, 0⟩) :=
    Yields.foldlM (fun l ind hind hl => lossTurn_inRange hm hlen (List.mem_range.mp hind) hl)
      ⟨hpos, hpos⟩
  unfold lossStep
  refine hfold.bind fun l hl => ?_
  split_ifs
  · refine (vectorAt_inRange (hlen.symm ▸ hl.2)).bind fun share _ => ?_
    split_ifs
    · refine (moveUnits_inRange (hlen.symm ▸ hl.2) (hlen.symm ▸ hl.1) 1).bind fun shares hs => ?_
      exact Yields.pure (Shaped.setShares hs)
    · exact Yields.pure (Shaped.refl s)
  · exact steerToDefault_inRange hm hcids hlen

theorem compareLoss_inRange (hm : Sized m) (hcids : linkState.cidList.length = m.links)
    (hlen : s.lastSplittingIndexList.length = m.links) (moved : Bool) :
    InRange (fun r => Shaped s r.1) (compareLoss A linkState m s e moved) := by
  unfold compareLoss
  split_ifs
  · exact lossStep_inRange hm hcids hlen
  · exact Yields.ok (Shaped.refl s)

theorem sumRatio_inRange {links : ℕ} (h : links ≤ shares.length) :
    InRange (fun _ => True) (sumRatio shares links) := by
  refine Yields.foldlM (fun sum ind hind _ => ?_) trivial
  refine (vectorAt_inRange ((List.mem_range.mp hind).trans_le h)).bind fun share _ => ?_
  exact Yields.pure trivial

theorem checkSum_inRange {links : ℕ} (h : links ≤ s.lastSplittingIndexList.length) :
    InRange (fun _ => True) (checkSum s links) := by
  unfold checkSum
  refine (sumRatio_inRange h).bind fun sum _ => ?_
  split_ifs
  · exact Yields.pure trivial
  · exact Yields.error (by decide)

structure Complete (links : ℕ) (d : SplittingDecision) : Prop where
  update : d.update → d.splitIndexList.length = links
  shares : d.splitIndexList = [] ∨ d.splitIndexList.length = links
  owds : d.minOwdLongTerm = []
  delays : d.queueingDelay = [] ∨ d.queueingDelay.length = links

theorem complete_decision {links : ℕ} (h : s.lastSplittingIndexList.length = links)
    (update : Bool) : Complete links (s.decision update) := ⟨fun _ => h, .inr h, rfl, .inl rfl⟩

theorem complete_none {links : ℕ} : Complete links {} :=
  ⟨fun h => absurd h (by decide), .inl rfl, rfl, .inl rfl⟩

theorem initSplitting_ranged (hm : Sized m)
    (hs : s.lastSplittingIndexList = [] ∨ s.lastSplittingIndexList.length = m.links)
    (hcounters : s.decreaseCounter.length = s.lastSplittingIndexList.length)
    (howds : s.enableStableAlgorithm → s.lastOwd.length = s.lastSplittingIndexList.length) :
    Ranged m.links (initSplitting A linkState m s) := by
  by_cases hempty : s.lastSplittingIndexList = []
  · rw [hempty, List.length_nil] at hcounters howds
    rw [initSplitting_of_nil hempty]
    refine ⟨shareOf_length.trans hm.cidList, ?_, fun hstable => ?_⟩
    · simp [hcounters]
    · have hstable' : s.enableStableAlgorithm = true := hstable
      simp [hstable', howds hstable', hm.delayList]
  · have hlen := hs.resolve_left hempty
    rw [initSplitting_of_ne_nil hempty]
    exact ⟨hlen, hcounters.trans hlen, fun hstable => (howds hstable).trans hlen⟩

theorem delayAlgorithm_inRange (hm : Sized m) (hcids : linkState.cidList.length = m.links)
    (h : Ranged m.links (initSplitting A linkState m s)) :
    InRange (fun r => Shaped (initSplitting A linkState m s) r.1 ∧ Complete m.links r.2)
      (delayAlgorithm A linkState m s) := by
  unfold delayAlgorithm
  refine (findExtremes_inRange hm h.length).bind fun e he => ?_
  refine (delayStep_inRange hm h he).bind fun ⟨s₁, moved⟩ h₁ => ?_
  refine (saveOwd_inRange hm (h.shaped h₁)).bind fun s₂ h₂ => ?_
  have hs₂ := h₁.trans h₂
  have hlen₂ := (h.shaped hs₂).length
  refine (compareLoss_inRange hm hcids hlen₂ moved).bind fun ⟨s₃, update⟩ h₃ => ?_
  have hs₃ := hs₂.trans h₃
  have hlen₃ := (h.shaped hs₃).length
  exact (checkSum_inRange hlen₃.ge).bind fun _ _ =>
    Yields.pure ⟨hs₃, complete_decision hlen₃ update⟩

theorem congDelayAlgorithm_inRange (hm : Sized m) (hcids : linkState.cidList.length = m.links)
    (h : Ranged m.links (initSplitting A linkState m s)) :
    InRange (fun r => Shaped (initSplitting A linkState m s) r.1 ∧ Complete m.links r.2)
      (congDelayAlgorithm A linkState m s) := by
  have hagain : initSplitting A linkState m (initSplitting A linkState m s) =
      initSplitting A linkState m s := initSplitting_of_ne_nil (initSplitting_ne_nil hm)
  have hdelay : InRange (fun r => Shaped (initSplitting A linkState m s) r.1 ∧ Complete m.links r.2)
      (delayAlgorithm A linkState m (initSplitting A linkState m s)) := by
    have hrun := delayAlgorithm_inRange (s := initSplitting A linkState m s) hm hcids
      (hagain.symm ▸ h)
    rwa [hagain] at hrun
  have hpos : 0 < m.links := Nat.pos_of_ne_zero hm.links
  have hindex : (cidToIndex linkState.defaultLinkCid linkState.cidList).getD 0 < m.links := by
    cases hind : cidToIndex linkState.defaultLinkCid linkState.cidList with
    | none => exact hpos
    | some index => exact cidToIndex_lt hind hcids
  unfold congDelayAlgorithm
  refine (vectorAt_inRange (h.length.symm ▸ hindex)).bind fun share _ => ?_
  split_ifs
  · refine (vectorAt_inRange (hm.lossRateList.symm ▸ hpos)).bind fun loss _ => ?_
    split_ifs
    · exact hdelay
    · exact Yields.pure ⟨Shaped.refl _, complete_none⟩
  · exact hdelay

end Delay

section LinkDown
variable {linkState : LinkState} {s : GmaRxControl}

theorem anyLinkUp_inRange {inds : List ℕ} (h : ∀ ind ∈ inds, ind < linkState.cidList.length) :
    InRange (fun _ => True) (anyLinkUp linkState inds) := by
  obtain ⟨up, hup⟩ := anyLinkUp_total h
  rw [hup]
  exact Yields.ok trivial

theorem distribute_inRange {fuel units iterInd : ℕ} {shares : List ℕ}
    (hlen : shares.length = linkState.cidList.length) (hlt : iterInd < shares.length) :
    InRange (fun shares' => shares'.length = shares.length)
      (distribute linkState fuel shares units iterInd) := by
  induction fuel generalizing units iterInd shares with
  | zero =>
    cases units with
    | zero => exact Yields.ok rfl
    | succ units => exact Yields.error (by decide)
  | succ fuel ih =>
    cases units with
    | zero => exact Yields.ok rfl
    | succ units =>
      have hnext : (iterInd + 1) % shares.length % 256 < shares.length :=
        (Nat.mod_le _ _).trans_lt (Nat.mod_lt _ (Nat.zero_lt_of_lt hlt))
      unfold distribute
      refine (vectorAt_inRange (hlen ▸ hlt)).bind fun cid _ => ?_
      dsimp only
      split_ifs
      · refine (vectorAt_inRange hlt).bind fun share _ => ?_
        refine (vectorSet_inRange hlt _).bind fun raised hraised => ?_
        exact (ih (hraised.trans hlen) (hraised.symm ▸ hnext)).mono
          fun shares' hshares' => hshares'.trans hraised
      · exact ih hlen hnext

theorem linkDownTsu_inRange {cid : Cid} (h : s.lastSplittingIndexList = [] ∨
      s.lastSplittingIndexList.length = linkState.cidList.length) :
    InRange (fun r => Shaped s r.1 ∧ Complete linkState.cidList.length r.2)
      (linkDownTsu linkState s cid) := by
  have hsame : Complete linkState.cidList.length (s.decision false) :=
    ⟨fun hup => absurd hup Bool.false_ne_true, h, rfl, .inl rfl⟩
  unfold linkDownTsu
  split_ifs with halg hempty hdef
  · exact Yields.pure ⟨Shaped.refl s, hsame⟩
  · refine Yields.pure ⟨Shaped.refl s, fun _ => ?_, .inr ?_, rfl, .inl rfl⟩
    · exact shareOf_length
    · exact shareOf_length
  · exact Yields.pure ⟨Shaped.refl s, hsame⟩
  · have hlen := h.resolve_left hempty
    cases hindex : cidToIndex cid linkState.cidList with
    | none => exact Yields.error (by decide)
    | some failedLink =>
      have hlt : failedLink < s.lastSplittingIndexList.length := cidToIndex_lt hindex hlen.symm
      dsimp only
      refine (vectorAt_inRange hlt).bind fun share _ => ?_
      split_ifs
      · exact Yields.pure ⟨Shaped.refl s, hsame⟩
      · refine (anyLinkUp_inRange fun ind hind => hlen ▸ List.mem_range.mp hind).bind
          fun up _ => ?_
        split_ifs
        · refine (vectorSet_inRange hlt 0).bind fun cleared hcleared => ?_
          have hpos : 0 < cleared.length := hcleared.symm ▸ Nat.zero_lt_of_lt hlt
          refine (distribute_inRange (hcleared.trans hlen) hpos).bind fun shares hshares => ?_
          have hall : shares.length = s.lastSplittingIndexList.length := hshares.trans hcleared
          refine (checkSum_inRange hall.ge).bind fun _ _ => ?_
          exact Yields.pure ⟨Shaped.setShares hall, complete_decision (hall.trans hlen) true⟩
        · exact Yields.pure ⟨Shaped.refl s, hsame⟩

end LinkDown

section Violation
variable {δ : Type} {R : SplitArith δ} {m : RxMeasurement δ} {v₀ v : ViolationState δ}
  {inputs : Inputs δ} {shares : List ℕ}

theorem newBurst_ne_one {rx : GmaRxControl} (h : rx.splittingBurst ≠ 1) :
    newBurst inputs rx ≠ 1 := by
  unfold newBurst adaptiveBurst
  split_ifs
  · have hpos : (min (max 3 inputs.estBurstRequirement) 7).toNat ≠ 0 := by omega
    exact (Nat.one_lt_two_pow hpos).ne'
  · exact h

structure Violating (links : ℕ) (v₀ v : ViolationState δ) : Prop where
  shares : v.rx.lastSplittingIndexList.length = links
  ratio : v.lastRatio.length = links
  algorithm : v.rx.algorithm = v₀.rx.algorithm
  split : v₀.rx.splittingBurst ≠ 1 → v.rx.splittingBurst ≠ 1
  cidList : v.linkState.cidList = v₀.linkState.cidList

theorem initViolation_inRange (hm : Sized m)
    (hshares : v.rx.lastSplittingIndexList = [] ∨ v.rx.lastSplittingIndexList.length = m.links)
    (hratio : v.lastRatio = [] ∨ v.lastRatio.length = m.links) :
    InRange (Violating m.links v) (initViolation R m v) := by
  have hlen : (initShares m v).length = m.links := by
    unfold initShares
    split_ifs with hempty
    · exact shareOf_length.trans hm.cidList
    · exact hshares.resolve_left hempty
  unfold initViolation
  rw [if_neg hlen.ge.not_gt]
  refine Yields.ok ⟨hlen, ?_, rfl, id, rfl⟩
  change (initRatio R m v).length = m.links
  unfold initRatio
  split_ifs with hempty
  · rw [List.length_map, List.length_take, hlen, min_self]
  · exact hratio.resolve_left hempty

theorem linkFailure_inRange (h : Violating m.links v₀ v) :
    InRange (fun r => Violating m.links v₀ r.1) (linkFailure m v) := by
  unfold linkFailure
  dsimp only
  split
  · exact Yields.error (by decide)
  · split_ifs
    · exact Yields.ok ⟨h.shares, h.ratio, h.algorithm, h.split,
        (noDataDown_cidList _ _).trans h.cidList⟩
    · exact Yields.ok h
  · exact Yields.ok ⟨h.shares, h.ratio, h.algorithm, h.split,
      (noDataDowns_cidList _ _).trans h.cidList⟩

theorem applyRatio_inRange (h : Violating m.links v₀ v)
    (hnew : inputs.newRatio = [] ∨ inputs.newRatio.length = m.links) :
    InRange (fun r => Violating m.links v₀ r.1) (applyRatio R m v inputs) := by
  unfold applyRatio
  dsimp only
  split_ifs with hempty hsizes
  · exact Yields.ok h
  · refine absurd hsizes (not_or.mpr ⟨?_, h.ratio.ge.not_gt⟩)
    exact not_not.mpr (hnew.resolve_left hempty)
  · exact Yields.error (by decide)
  · have hlen := hnew.resolve_left hempty
    have hsplit : v₀.rx.splittingBurst ≠ 1 → newBurst inputs v.rx ≠ 1 :=
      fun hne => newBurst_ne_one (h.split hne)
    unfold takeShares
    split_ifs
    · refine Yields.ok ⟨?_, hlen, h.algorithm, hsplit, h.cidList⟩
      change (fixRounding _ (burstPerLink R _ _ _)).length = m.links
      rw [fixRounding_length, burstPerLink, List.length_map, List.length_zip, hlen, h.ratio,
        min_self]
    · exact Yields.ok ⟨h.shares, h.ratio, h.algorithm, hsplit, h.cidList⟩

theorem queueingDelays_length {rx : GmaRxControl} (hsizes : checkSizes m = .ok ())
    (hlen : rx.lastSplittingIndexList.length = m.links) :
    queueingDelays R m rx = [] ∨ (queueingDelays R m rx).length = m.links := by
  unfold checkSizes at hsizes
  split_ifs at hsizes with hzero hall
  unfold queueingDelays
  dsimp only
  split_ifs
  · refine .inr ?_
    rw [List.length_map, List.length_zip, List.length_zip, List.length_zip, hlen, hall.2.1,
      hall.2.2.1, hall.2.2.2.1, min_self, min_self, min_self]
  · exact .inl rfl

theorem delayViolationAlgorithm_inRange (hsizes : checkSizes m = .ok ())
    (hshares : v.rx.lastSplittingIndexList = [] ∨ v.rx.lastSplittingIndexList.length = m.links)
    (hratio : v.lastRatio = [] ∨ v.lastRatio.length = m.links)
    (hnew : inputs.newRatio = [] ∨ inputs.newRatio.length = m.links) :
    InRange (fun r => Violating m.links v r.1 ∧ Complete m.links r.2)
      (delayViolationAlgorithm R m v inputs) := by
  unfold delayViolationAlgorithm
  split_ifs
  · exact Yields.error (by decide)
  · refine (initViolation_inRange (sized_of_checkSizes hsizes) hshares hratio).bind
      fun v₁ h₁ => ?_
    refine (linkFailure_inRange h₁).bind fun ⟨v₂, failed⟩ h₂ => ?_
    have hactive : Violating m.links v (noteActive m v₂) :=
      ⟨h₂.shares, h₂.ratio, h₂.algorithm, h₂.split, h₂.cidList⟩
    refine (applyRatio_inRange hactive hnew).bind fun ⟨v₃, changed⟩ h₃ => ?_
    refine (checkSum_inRange h₃.shares.ge).bind fun _ _ => Yields.pure ⟨h₃, ?_⟩
    exact ⟨fun _ => h₃.shares, .inr h₃.shares, rfl, queueingDelays_length hsizes h₃.shares⟩

end Violation

section QosSteer
variable {δ : Type} {R : SplitArith δ} {linkState : LinkState} {m : RxMeasurement δ}
  {s : GmaRxControl} {inputs : Inputs δ}

theorem indexOf_lt {links : ℕ} (hcids : linkState.cidList.length = links) (hpos : links ≠ 0)
    (cid : Cid) : indexOf linkState cid < links := by
  unfold indexOf
  cases hindex : cidToIndex cid linkState.cidList with
  | none => exact Nat.pos_of_ne_zero hpos
  | some ind => exact cidToIndex_lt hindex hcids

theorem steerTraffic_inRange {ind : ℕ} (hlen : s.lastSplittingIndexList.length = m.links) :
    InRange (fun r => Shaped s r.1 ∧ Complete m.links r.2) (steerTraffic m s ind) := by
  have hsteer : InRange (Shaped s) (steerTo m s ind) := by
    unfold steerTo
    rw [if_neg hlen.ge.not_gt]
    refine Yields.ok (Shaped.setShares ?_)
    rw [List.length_append, List.length_map, List.length_range, List.length_drop, hlen,
      Nat.sub_self, Nat.add_zero]
  exact hsteer.bind fun s' hs' =>
    Yields.pure ⟨hs', complete_decision (hs'.length.trans hlen) true⟩

theorem qosOkTurn_inRange (hm : Sized m) (hratio : m.highDelayRatioList.length = m.links)
    {primary ind : ℕ} (hlt : ind < m.links) (list : List ℕ) :
    InRange (fun _ => True) (qosOkTurn R linkState m primary list ind) := by
  have hok : InRange (fun _ => True) (qosOk R linkState m ind) := by
    unfold qosOk
    refine (vectorAt_inRange (hm.cidList.symm ▸ hlt)).bind fun cid _ => ?_
    split_ifs
    · refine (vectorAt_inRange (hratio.symm ▸ hlt)).bind fun highDelay _ => ?_
      exact (vectorAt_inRange (hm.lossRateList.symm ▸ hlt)).bind fun _ _ => Yields.pure trivial
    · exact Yields.pure trivial
  unfold qosOkTurn
  split_ifs
  · exact Yields.pure trivial
  · exact hok.bind fun _ _ => Yields.pure trivial

theorem readMeasured_inRange (hm : Sized m) (hratio : m.highDelayRatioList.length = m.links)
    (hcids : linkState.cidList.length = m.links) (backup : Cid) :
    InRange (fun _ => True) (readMeasured m (testedLinks linkState m backup)) := by
  unfold readMeasured
  rw [if_pos]
  · exact Yields.ok trivial
  · intro ind hind
    rw [hratio]
    rcases List.mem_cons.mp hind with rfl | hind
    · exact indexOf_lt hcids hm.links backup
    · obtain ⟨p, -, rfl⟩ := List.mem_map.mp hind
      exact indexOf_lt hcids hm.links p.1

theorem qosVerdict_inRange (hm : Sized m) (hratio : m.highDelayRatioList.length = m.links)
    (hcids : linkState.cidList.length = m.links)
    (hlen : s.lastSplittingIndexList.length = m.links) (backup : Cid) (overOthers : ℕ)
    (okList : List ℕ) :
    InRange (fun r => Shaped s r.1 ∧ Complete m.links r.2)
      (qosVerdict linkState m backup s overOthers okList) := by
  have hsame : Shaped s s ∧ Complete m.links (s.decision false) :=
    ⟨Shaped.refl s, complete_decision hlen false⟩
  unfold qosVerdict
  split
  · refine (readMeasured_inRange hm hratio hcids backup).bind fun _ _ => ?_
    split_ifs
    · exact Yields.pure hsame
    · exact steerTraffic_inRange hlen
  · split_ifs
    · exact Yields.ok hsame
    · exact steerTraffic_inRange hlen
  · exact Yields.error (by decide)

theorem qosSteerAlgorithm_inRange (hm : Sized m)
    (hratio : m.highDelayRatioList.length = m.links)
    (hcids : linkState.cidList.length = m.links)
    (hshares : s.lastSplittingIndexList = [] ∨ s.lastSplittingIndexList.length = m.links) :
    InRange (fun r => Shaped (initSteer linkState m s) r.1 ∧ Complete m.links r.2)
      (qosSteerAlgorithm R linkState m inputs s) := by
  have hlen : (initSteer linkState m s).lastSplittingIndexList.length = m.links := by
    unfold initSteer
    split_ifs with hempty
    · exact shareOf_length.trans hm.cidList
    · exact hshares.resolve_left hempty
  unfold qosSteerAlgorithm
  dsimp only
  split_ifs with hburst hshort
  · exact Yields.error (by decide)
  · exact absurd hshort hlen.ge.not_gt
  · refine (Yields.foldlM (R := fun _ => True) (fun list ind hind _ =>
      qosOkTurn_inRange hm hratio (List.mem_range.mp hind) list) trivial).bind fun okList _ => ?_
    exact qosVerdict_inRange hm hratio hcids hlen _ _ okList

end QosSteer
end GmaRxControl
end NetGymSim.Gma

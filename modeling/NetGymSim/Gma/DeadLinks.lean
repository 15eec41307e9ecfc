import NetGymSim.Gma.RatioRuns

/-!
# Shares of links that are down

The comparison of delays starts at the first link with traffic, whether that link is up
or not, and only then looks at the links that are up. When none of these is faster, the
link it started at stays the fastest one, and gets units when a slower link has traffic to
give. The loss phase compares links that are up only.
-/

namespace NetGymSim.Gma
open NetGymSim.Lib

namespace GmaRxControl
variable {δ : Type} (A : DelayArith δ) (linkState : LinkState) (m : RxMeasurement δ)

def upAt (ind : ℕ) : Prop := ∃ cid, m.cidList[ind]? = some cid ∧ linkState.isLinkUp cid

instance (ind : ℕ) : Decidable (upAt linkState m ind) :=
  match h : m.cidList[ind]? with
  | none => .isFalse fun ⟨_, hc, _⟩ => by rw [h] at hc; cases hc
  | some cid =>
      if hup : linkState.isLinkUp cid then .isTrue ⟨cid, h, hup⟩
      else .isFalse fun ⟨c, hc, hcup⟩ => hup (by
        rw [h] at hc
        rwa [Option.some.inj hc])

def hasTraffic (shares : List ℕ) (ind : ℕ) : Bool := shares.getD ind 0 ≠ 0

def delayAt (ind : ℕ) : δ := m.delayList.getD ind A.zero

def faster (best ind : ℕ) : ℕ :=
  if upAt linkState m ind ∧ A.lt (delayAt A m ind) (delayAt A m best) then ind else best

def slower (shares : List ℕ) (best ind : ℕ) : ℕ :=
  if upAt linkState m ind ∧ A.lt (delayAt A m best) (delayAt A m ind) ∧ hasTraffic shares ind
  then ind else best

def slowest (shares : List ℕ) (first : ℕ) : ℕ :=
  (List.range m.links).foldl (slower A linkState m shares) first

def decreaseStep (s : GmaRxControl) (ind : ℕ) : ℕ :=
  if s.enableAdaptiveStep then
    min (max ((s.decreaseCounter.getD ind 0 + 1) % 256 - stepThresh) 1)
      (s.lastSplittingIndexList.getD ind 0)
  else 1

/-- The first link with traffic is down and no link that is up is faster; the slowest one with
traffic is slower by more than the threshold, and by the stable algorithm not on its way
down; and the byte has room for what it gives. -/
def FeedsDown (s : GmaRxControl) : Prop :=
  ∃ first ∈ (List.range m.links).find? (hasTraffic s.lastSplittingIndexList),
    ¬ upAt linkState m first ∧
    (∀ ind < m.links, upAt linkState m ind → ¬ A.lt (delayAt A m ind) (delayAt A m first)) ∧
    slowest A linkState m s.lastSplittingIndexList first ≠ first ∧
    A.apart (delayAt A m (slowest A linkState m s.lastSplittingIndexList first))
      (delayAt A m first) ∧
    (s.enableStableAlgorithm →
      A.intLe (s.lastOwd.getD (slowest A linkState m s.lastSplittingIndexList first) 0)
        (delayAt A m (slowest A linkState m s.lastSplittingIndexList first))) ∧
    s.lastSplittingIndexList.getD first 0 +
      decreaseStep s (slowest A linkState m s.lastSplittingIndexList first) < 256

def NoneFed (before after : List ℕ) : Prop :=
  ∀ (ind : ℕ) (cid : Cid) (x y : ℕ), m.cidList[ind]? = some cid → ¬ linkState.isLinkUp cid →
    before[ind]? = some x → after[ind]? = some y → y ≤ x

variable {A linkState m} {s s' : GmaRxControl} {e e' : Extremes δ}

theorem NoneFed.refl (shares : List ℕ) : NoneFed linkState m shares shares := by
  intro ind cid x y _ _ hx hy
  rw [hx] at hy
  exact (Option.some.inj hy).ge

theorem upAt_iff {ind : ℕ} {cid : Cid} (h : m.cidList[ind]? = some cid) :
    upAt linkState m ind ↔ linkState.isLinkUp cid := by
  constructor
  · rintro ⟨c, hc, hup⟩
    rw [h] at hc
    rwa [Option.some.inj hc]
  · intro hup
    exact ⟨cid, h, hup⟩

theorem getD_of_vectorAt {α : Type} {v : List α} {ind : ℕ} {a : α} (h : vectorAt v ind = .ok a)
    (b : α) : v.getD ind b = a := by
  rw [List.getD_eq_getElem?_getD, vectorAt_eq_ok.mp h, Option.getD_some]

section Scan
variable {shares : List ℕ}

def Extremes.Measured (A : DelayArith δ) (m : RxMeasurement δ) (e : Extremes δ) : Prop :=
  e.minDelay = delayAt A m e.minIndex ∧ e.maxDelay = delayAt A m e.maxIndex

theorem initialExtremes_eq {inds : List ℕ} (h : initialExtremes m shares inds = .ok e) :
    ∃ first ∈ inds.find? (hasTraffic shares),
      e = ⟨delayAt A m first, first, delayAt A m first, first⟩ := by
  induction inds with
  | nil => cases h
  | cons ind inds ih =>
    simp only [initialExtremes, bind_eq_ok] at h
    obtain ⟨share, hshare, h⟩ := h
    have hget := getD_of_vectorAt hshare 0
    split_ifs at h with hne
    · simp only [bind_eq_ok] at h
      obtain ⟨delay, hdelay, h⟩ := h
      have hd : delayAt A m ind = delay := getD_of_vectorAt hdelay A.zero
      refine ⟨ind, ?_, ?_⟩
      · have htraffic : hasTraffic shares ind = true := by
          rw [hasTraffic, hget]
          exact decide_eq_true hne
        rw [List.find?_cons_of_pos htraffic]
        rfl
      · rw [hd]
        exact (pure_eq_ok.mp h).symm
    · obtain ⟨first, hfirst, he⟩ := ih h
      refine ⟨first, ?_, he⟩
      have hnone : ¬ hasTraffic shares ind = true := by
        rw [hasTraffic, hget]
        exact fun hc => hne (of_decide_eq_true hc)
      rw [List.find?_cons_of_neg hnone]
      exact hfirst

theorem extremesTurn_eq {ind : ℕ} (h : extremesTurn A linkState m shares e ind = .ok e')
    (he : Extremes.Measured A m e) :
    Extremes.Measured A m e' ∧ e'.minIndex = faster A linkState m e.minIndex ind ∧
      e'.maxIndex = slower A linkState m shares e.maxIndex ind := by
  simp only [extremesTurn, bind_eq_ok] at h
  obtain ⟨cid, hcid, h⟩ := h
  have hup : upAt linkState m ind ↔ linkState.isLinkUp cid := upAt_iff (vectorAt_eq_ok.mp hcid)
  split_ifs at h with hlink
  · simp only [bind_eq_ok] at h
    obtain ⟨delay, hdelay, h⟩ := h
    have hd : delayAt A m ind = delay := getD_of_vectorAt hdelay A.zero
    obtain ⟨hmin, hmax⟩ := he
    set e₁ := if A.lt delay e.minDelay then { e with minDelay := delay, minIndex := ind } else e
      with he₁
    have hmin₁ : e₁.minIndex = faster A linkState m e.minIndex ind ∧
        e₁.minDelay = delayAt A m e₁.minIndex := by
      by_cases hlt : A.lt delay e.minDelay
      · rw [he₁, if_pos hlt, faster, if_pos ⟨hup.mpr hlink, by rwa [hd, ← hmin]⟩]
        exact ⟨rfl, hd.symm⟩
      · rw [he₁, if_neg hlt, faster, if_neg fun hc => hlt (by rw [hmin, ← hd]; exact hc.2)]
        exact ⟨rfl, hmin⟩
    have hmax₁ : e₁.maxIndex = e.maxIndex ∧ e₁.maxDelay = e.maxDelay := by
      rw [he₁]
      split_ifs <;> exact ⟨rfl, rfl⟩
    by_cases hgt : A.lt e₁.maxDelay delay
    · rw [if_pos hgt, bind_eq_ok] at h
      obtain ⟨share, hshare, h⟩ := h
      have hget := getD_of_vectorAt hshare 0
      have hgt' : A.lt (delayAt A m e.maxIndex) (delayAt A m ind) := by
        rw [hd, ← hmax, ← hmax₁.2]
        exact hgt
      by_cases hne : share ≠ 0
      · rw [if_pos hne] at h
        cases pure_eq_ok.mp h
        refine ⟨⟨hmin₁.2, hd.symm⟩, hmin₁.1, ?_⟩
        rw [slower, if_pos ⟨hup.mpr hlink, hgt', by rwa [hasTraffic, hget, decide_eq_true_eq]⟩]
      · rw [if_neg hne] at h
        rw [← pure_eq_ok.mp h]
        refine ⟨⟨hmin₁.2, by rw [hmax₁.1, hmax₁.2, hmax]⟩, hmin₁.1, ?_⟩
        have hnone : ¬ hasTraffic shares ind = true := by
          rw [hasTraffic, hget]
          exact fun hc => hne (of_decide_eq_true hc)
        rw [slower, if_neg fun hc => hnone hc.2.2, hmax₁.1]
    · rw [if_neg hgt] at h
      rw [← pure_eq_ok.mp h]
      refine ⟨⟨hmin₁.2, by rw [hmax₁.1, hmax₁.2, hmax]⟩, hmin₁.1, ?_⟩
      rw [slower, if_neg fun hc => hgt (by rw [hmax₁.2, hmax, ← hd]; exact hc.2.1), hmax₁.1]
  · cases pure_eq_ok.mp h
    have hdown : ¬ upAt linkState m ind := fun hc => hlink (hup.mp hc)
    rw [faster, if_neg fun hc => hdown hc.1, slower, if_neg fun hc => hdown hc.1]
    exact ⟨he, rfl, rfl⟩

theorem extremesTurn_fold {inds : List ℕ}
    (h : inds.foldlM (extremesTurn A linkState m shares) e = .ok e')
    (he : Extremes.Measured A m e) :
    Extremes.Measured A m e' ∧ e'.minIndex = inds.foldl (faster A linkState m) e.minIndex ∧
      e'.maxIndex = inds.foldl (slower A linkState m shares) e.maxIndex := by
  induction inds generalizing e with
  | nil =>
    cases pure_eq_ok.mp h
    exact ⟨he, rfl, rfl⟩
  | cons ind inds ih =>
    simp only [List.foldlM_cons, bind_eq_ok] at h
    obtain ⟨e₁, h₁, h⟩ := h
    obtain ⟨hm₁, hmin, hmax⟩ := extremesTurn_eq h₁ he
    obtain ⟨hm, hmin', hmax'⟩ := ih h hm₁
    rw [hmin] at hmin'
    rw [hmax] at hmax'
    exact ⟨hm, hmin', hmax'⟩

theorem faster_fold_up (inds : List ℕ) {best : ℕ} (h : upAt linkState m best) :
    upAt linkState m (inds.foldl (faster A linkState m) best) := by
  induction inds generalizing best with
  | nil => exact h
  | cons ind inds ih =>
    apply ih
    unfold faster
    split_ifs with hc
    · exact hc.1
    · exact h

theorem faster_fold_or (inds : List ℕ) (first : ℕ) :
    inds.foldl (faster A linkState m) first = first ∨
      upAt linkState m (inds.foldl (faster A linkState m) first) := by
  induction inds with
  | nil => exact .inl rfl
  | cons ind inds ih =>
    rw [List.foldl_cons]
    by_cases hc : upAt linkState m ind ∧ A.lt (delayAt A m ind) (delayAt A m first)
    · have hnext : faster A linkState m first ind = ind := if_pos hc
      rw [hnext]
      exact .inr (faster_fold_up inds hc.1)
    · have hnext : faster A linkState m first ind = first := if_neg hc
      rw [hnext]
      exact ih

/-- From a link that is down the scan moves on when it meets a faster one that is up. -/
theorem faster_fold_eq_iff {inds : List ℕ} {first : ℕ} (hdown : ¬ upAt linkState m first) :
    inds.foldl (faster A linkState m) first = first ↔
      ∀ ind ∈ inds, upAt linkState m ind → ¬ A.lt (delayAt A m ind) (delayAt A m first) := by
  induction inds with
  | nil => exact ⟨fun _ _ hin => absurd hin List.not_mem_nil, fun _ => rfl⟩
  | cons ind inds ih =>
    rw [List.foldl_cons, List.forall_mem_cons]
    by_cases hc : upAt linkState m ind ∧ A.lt (delayAt A m ind) (delayAt A m first)
    · have hnext : faster A linkState m first ind = ind := if_pos hc
      have hlast : upAt linkState m (inds.foldl (faster A linkState m) ind) :=
        faster_fold_up inds hc.1
      rw [hnext]
      constructor
      · intro heq
        rw [heq] at hlast
        exact absurd hlast hdown
      · rintro ⟨hnone, -⟩
        exact absurd hc.2 (hnone hc.1)
    · have hnext : faster A linkState m first ind = first := if_neg hc
      rw [hnext, ih]
      exact (and_iff_right fun hup hlt => hc ⟨hup, hlt⟩).symm

theorem findExtremes_eq (h : findExtremes A linkState m shares = .ok e) :
    ∃ first ∈ (List.range m.links).find? (hasTraffic shares),
      Extremes.Measured A m e ∧
      e.minIndex = (List.range m.links).foldl (faster A linkState m) first ∧
      e.maxIndex = slowest A linkState m shares first := by
  simp only [findExtremes, bind_eq_ok] at h
  obtain ⟨e₀, h₀, h⟩ := h
  obtain ⟨first, hfirst, he₀⟩ := initialExtremes_eq (A := A) h₀
  have hm₀ : Extremes.Measured A m e₀ := by
    rw [he₀]
    exact ⟨rfl, rfl⟩
  obtain ⟨hm, hmin, hmax⟩ := extremesTurn_fold h hm₀
  rw [he₀] at hmin hmax
  exact ⟨first, hfirst, hm, hmin, hmax⟩

end Scan

section Moves
variable {shares shares' : List ℕ} {src dst step ind x y : ℕ}

theorem moveUnits_le (h : moveUnits shares src dst step = .ok shares')
    (hstep : ∀ z, shares[src]? = some z → step ≤ z) (hind : ind ≠ dst ∨ src = dst)
    (hx : shares[ind]? = some x) (hy : shares'[ind]? = some y) : y ≤ x := by
  simp only [moveUnits, bind_eq_ok, vectorAt_eq_ok, vectorSet_eq_ok] at h
  obtain ⟨z, hz, given, ⟨hsrc, rfl⟩, w, hw, hdst, rfl⟩ := h
  have hle := hstep z hz
  by_cases hid : ind = dst
  · obtain rfl : src = dst := hind.resolve_left (not_not.mpr hid)
    subst hid
    obtain rfl : x = z := Option.some.inj (hx.symm.trans hz)
    rw [List.getElem?_set_self hdst] at hy
    rw [List.getElem?_set_self hsrc] at hw
    have hwv := Option.some.inj hw
    have hyv := Option.some.inj hy
    omega
  · rw [List.getElem?_set_ne (Ne.symm hid)] at hy
    by_cases his : ind = src
    · subst his
      obtain rfl : x = z := Option.some.inj (hx.symm.trans hz)
      rw [List.getElem?_set_self hsrc] at hy
      have hyv := Option.some.inj hy
      omega
    · rw [List.getElem?_set_ne (Ne.symm his), hx] at hy
      exact (Option.some.inj hy).ge

theorem moveUnits_place (h : moveUnits shares src dst step = .ok shares') :
    ∃ x, shares[dst]? = some x := by
  simp only [moveUnits, bind_eq_ok, vectorAt_eq_ok, vectorSet_eq_ok] at h
  obtain ⟨z, hz, given, ⟨hsrc, rfl⟩, w, hw, hdst, -⟩ := h
  rw [List.length_set] at hdst
  exact ⟨_, List.getElem?_eq_getElem hdst⟩

theorem moveUnits_dst (h : moveUnits shares src dst step = .ok shares') (hne : src ≠ dst)
    (hx : shares[dst]? = some x) : shares'[dst]? = some ((x + step) % 256) := by
  simp only [moveUnits, bind_eq_ok, vectorAt_eq_ok, vectorSet_eq_ok] at h
  obtain ⟨z, -, given, ⟨-, rfl⟩, w, hw, hdst, rfl⟩ := h
  rw [List.getElem?_set_ne hne, hx] at hw
  rw [List.getElem?_set_self hdst, ← Option.some.inj hw]

theorem countDecrease_get {c : ℕ} (h : vectorAt (s.countDecrease ind) ind = .ok c) :
    c = (s.decreaseCounter.getD ind 0 + 1) % 256 := by
  rw [vectorAt_eq_ok, countDecrease, List.getElem?_map, List.getElem?_zipIdx] at h
  cases hc : s.decreaseCounter[ind]? with
  | none =>
    rw [hc] at h
    cases h
  | some c₀ =>
    rw [hc] at h
    have hval := Option.some.inj h
    dsimp only at hval
    rw [if_pos (Nat.zero_add ind)] at hval
    rw [List.getD_eq_getElem?_getD, hc, Option.getD_some]
    exact hval.symm

theorem moveByDelay_moveUnits (h : moveByDelay s e = .ok s') :
    moveUnits s.lastSplittingIndexList e.maxIndex e.minIndex (decreaseStep s e.maxIndex) =
      .ok s'.lastSplittingIndexList := by
  simp only [moveByDelay] at h
  by_cases hadaptive : s.enableAdaptiveStep
  · rw [if_pos hadaptive] at h
    simp only [bind_eq_ok] at h
    obtain ⟨counter, hcounter, share, hshare, shares, hmove, h⟩ := h
    cases pure_eq_ok.mp h
    rw [decreaseStep, if_pos hadaptive, getD_of_vectorAt hshare, ← countDecrease_get hcounter]
    exact hmove
  · rw [if_neg hadaptive] at h
    simp only [bind_eq_ok] at h
    obtain ⟨shares, hmove, h⟩ := h
    cases pure_eq_ok.mp h
    rw [decreaseStep, if_neg hadaptive]
    exact hmove

theorem decreaseStep_bounds (hpos : 0 < s.lastSplittingIndexList.getD ind 0) :
    0 < decreaseStep s ind ∧ decreaseStep s ind ≤ s.lastSplittingIndexList.getD ind 0 ∧
      decreaseStep s ind < 256 := by
  unfold decreaseStep stepThresh
  split_ifs <;> omega

end Moves

section Phases
variable {moved update : Bool}

def Moves (A : DelayArith δ) (m : RxMeasurement δ) (s : GmaRxControl) (e : Extremes δ) : Prop :=
  A.apart e.maxDelay e.minDelay ∧
  (s.enableStableAlgorithm →
    A.intLe (s.lastOwd.getD e.maxIndex 0) (delayAt A m e.maxIndex)) ∧
  0 < s.lastSplittingIndexList.getD e.maxIndex 0

theorem notDecreasing_eq {ind : ℕ} {b : Bool} (h : notDecreasing A m s ind = .ok b) :
    b = true ↔ (s.enableStableAlgorithm → A.intLe (s.lastOwd.getD ind 0) (delayAt A m ind)) := by
  simp only [notDecreasing] at h
  split_ifs at h with hstable
  · simp only [bind_eq_ok] at h
    obtain ⟨owd, howd, delay, hdelay, h⟩ := h
    have hd : delayAt A m ind = delay := getD_of_vectorAt hdelay A.zero
    rw [getD_of_vectorAt howd, hd, ← pure_eq_ok.mp h]
    exact ⟨fun hle _ => hle, fun hle => hle hstable⟩
  · rw [← pure_eq_ok.mp h]
    exact ⟨fun _ hc => absurd hc hstable, fun _ => rfl⟩

theorem delayStep_cases (h : delayStep A m s e = .ok (s', moved)) :
    (moved = false ∧ ¬ Moves A m s e ∧
        s'.lastSplittingIndexList = s.lastSplittingIndexList) ∨
      (moved = true ∧ Moves A m s e ∧
        moveUnits s.lastSplittingIndexList e.maxIndex e.minIndex (decreaseStep s e.maxIndex) =
          .ok s'.lastSplittingIndexList) := by
  simp only [delayStep] at h
  split_ifs at h with hapart
  · simp only [bind_eq_ok] at h
    obtain ⟨b, hb, h⟩ := h
    have hstable := notDecreasing_eq hb
    split_ifs at h with hwait
    · simp only [bind_eq_ok] at h
      obtain ⟨share, hshare, h⟩ := h
      have hget := getD_of_vectorAt hshare 0
      split_ifs at h with hpos
      · simp only [bind_eq_ok] at h
        obtain ⟨s₁, hmove, heq⟩ := h
        cases pure_eq_ok.mp heq
        exact .inr ⟨rfl, ⟨hapart, hstable.mp hwait, by rwa [hget]⟩, moveByDelay_moveUnits hmove⟩
      · cases pure_eq_ok.mp h
        exact .inl ⟨rfl, fun hc => hpos (hget ▸ hc.2.2), rfl⟩
    · cases pure_eq_ok.mp h
      exact .inl ⟨rfl, fun hc => hwait (hstable.mpr hc.2.1), rfl⟩
  · cases pure_eq_ok.mp h
    exact .inl ⟨rfl, fun hc => hapart hc.1, rfl⟩

def LossExtremes.MinUp (linkState : LinkState) (m : RxMeasurement δ) (l : LossExtremes δ) : Prop :=
  (l.initialLoss = true → upAt linkState m l.minLossInd) ∧
    (l.initialLoss = false → l.maxLossInd = l.minLossInd)

theorem lossTurn_minUp {shares : List ℕ} {l l' : LossExtremes δ} {ind : ℕ}
    (h : lossTurn A linkState m shares l ind = .ok l') (hl : LossExtremes.MinUp linkState m l) :
    LossExtremes.MinUp linkState m l' := by
  simp only [lossTurn, bind_eq_ok] at h
  obtain ⟨cid, hcid, h⟩ := h
  have hup : upAt linkState m ind ↔ linkState.isLinkUp cid := upAt_iff (vectorAt_eq_ok.mp hcid)
  by_cases hlink : linkState.isLinkUp cid
  · rw [if_pos hlink, bind_eq_ok] at h
    obtain ⟨loss, -, h⟩ := h
    by_cases hinit : l.initialLoss
    · rw [if_neg (not_not.mpr hinit)] at h
      set l₁ := if A.lt loss l.minLoss then { l with minLoss := loss, minLossInd := ind } else l
        with hl₁
      have hkeep : l₁.initialLoss = true ∧ upAt linkState m l₁.minLossInd := by
        rw [hl₁]
        split_ifs
        · exact ⟨hinit, hup.mpr hlink⟩
        · exact ⟨hinit, hl.1 hinit⟩
      have hminUp : ∀ l₂ : LossExtremes δ, l₂.initialLoss = l₁.initialLoss →
          l₂.minLossInd = l₁.minLossInd → LossExtremes.MinUp linkState m l₂ := by
        intro l₂ hi hind
        refine ⟨fun _ => hind ▸ hkeep.2, fun hfalse => ?_⟩
        rw [hi, hkeep.1] at hfalse
        cases hfalse
      by_cases hmax : A.lt l₁.maxLoss loss
      · rw [if_pos hmax, bind_eq_ok] at h
        obtain ⟨share, -, h⟩ := h
        rw [← pure_eq_ok.mp h]
        split_ifs
        · exact hminUp _ rfl rfl
        · exact hminUp _ rfl rfl
      · rw [if_neg hmax] at h
        rw [← pure_eq_ok.mp h]
        exact hminUp _ rfl rfl
    · rw [if_pos hinit] at h
      cases pure_eq_ok.mp h
      exact ⟨fun _ => hup.mpr hlink, fun hc => Bool.noConfusion hc⟩
  · rw [if_neg hlink] at h
    cases pure_eq_ok.mp h
    exact hl

theorem lossTurn_fold {shares inds : List ℕ} {l : LossExtremes δ}
    (h : inds.foldlM (lossTurn A linkState m shares) ⟨false, A.zero, 0, A.zero, 0⟩ = .ok l) :
    upAt linkState m l.minLossInd ∨ l.maxLossInd = l.minLossInd := by
  have hinv : LossExtremes.MinUp linkState m l :=
    foldlM_inv (P := fun l _ => LossExtremes.MinUp linkState m l)
      (fun _ _ _ _ hl hturn => lossTurn_minUp hturn hl)
      ⟨fun hc => Bool.noConfusion hc, fun _ => rfl⟩ h
  cases hinit : l.initialLoss with
  | true => exact .inl (hinv.1 hinit)
  | false => exact .inr (hinv.2 hinit)

theorem steerToDefault_noneFed (h : steerToDefault linkState m s e = .ok (s', update))
    (hm : Sized m) :
    NoneFed linkState m s.lastSplittingIndexList s'.lastSplittingIndexList := by
  rcases steerToDefault_cases h with rfl | ⟨hsteer, -, -, -, rfl⟩
  · exact .refl _
  · intro ind cid x y hcid hdown _ hy
    have hlt : ind < m.cidList.length := (List.getElem?_eq_some_iff.mp hcid).1
    have hne : cid ≠ linkState.defaultLinkCid := fun heq => hdown (heq ▸ hsteer.2.2)
    rw [← hm.cidList, List.take_length, List.getElem?_append_left
      (by rw [shareOf, List.length_map]; exact hlt), shareOf, List.getElem?_map, hcid] at hy
    have hyv := Option.some.inj hy
    dsimp only at hyv
    rw [if_neg hne] at hyv
    exact hyv ▸ Nat.zero_le x

theorem compareLoss_noneFed (h : compareLoss A linkState m s e moved = .ok (s', update))
    (hm : Sized m) :
    NoneFed linkState m s.lastSplittingIndexList s'.lastSplittingIndexList ∧
      (moved = true → s' = s) := by
  simp only [compareLoss] at h
  split_ifs at h with hloss
  · refine ⟨?_, fun hmoved => absurd hmoved hloss.1⟩
    rcases lossStep_cases h with rfl | hsteer | ⟨l, share, shares, hl, hshare, hpos, hmove, rfl⟩
    · exact .refl _
    · exact steerToDefault_noneFed hsteer hm
    · intro ind cid x y hcid hdown hx hy
      refine moveUnits_le hmove ?_ ?_ hx hy
      · intro z hz
        rw [hz] at hshare
        have := Option.some.inj hshare
        omega
      · refine (lossTurn_fold hl).imp_left fun hup heq => ?_
        subst heq
        exact hdown ((upAt_iff hcid).mp hup)
  · cases h
    exact ⟨.refl _, fun _ => rfl⟩

end Phases

theorem slowest_traffic {shares : List ℕ} {first : ℕ} (h : hasTraffic shares first = true) :
    0 < shares.getD (slowest A linkState m shares first) 0 := by
  have hfold : ∀ (inds : List ℕ) (best : ℕ), hasTraffic shares best = true →
      hasTraffic shares (inds.foldl (slower A linkState m shares) best) = true := by
    intro inds
    induction inds with
    | nil => exact fun _ hbest => hbest
    | cons ind inds ih =>
      intro best hbest
      apply ih
      unfold slower
      split_ifs with hc
      · exact hc.2.2
      · exact hbest
  exact Nat.pos_of_ne_zero (of_decide_eq_true (hfold _ first h))

/-- Units go to a link that is down when the comparison ends at the one it started from. -/
theorem feedsDown_iff (he : findExtremes A linkState m s.lastSplittingIndexList = .ok e) :
    FeedsDown A linkState m s ↔ ¬ upAt linkState m e.minIndex ∧ e.maxIndex ≠ e.minIndex ∧
      Moves A m s e ∧
      s.lastSplittingIndexList.getD e.minIndex 0 + decreaseStep s e.maxIndex < 256 := by
  obtain ⟨first, hfirst, ⟨hmin, hmax⟩, hminIndex, hmaxIndex⟩ := findExtremes_eq he
  unfold FeedsDown Moves
  rw [hmin, hmax]
  constructor
  · rintro ⟨first', hfirst', hdown, hnone, hne, hapart, hstable, hroom⟩
    obtain rfl : first' = first := Option.some.inj (hfirst'.symm.trans hfirst)
    have hstay : e.minIndex = first' := by
      rw [hminIndex]
      exact (faster_fold_eq_iff hdown).mpr fun ind hind => hnone ind (List.mem_range.mp hind)
    rw [hstay, hmaxIndex]
    refine ⟨hdown, hne, ⟨hapart, hstable, ?_⟩, hroom⟩
    exact slowest_traffic (List.find?_some hfirst)
  · rintro ⟨hdown, hne, ⟨hapart, hstable, -⟩, hroom⟩
    have hstay : e.minIndex = first := by
      have hor : _ ∨ upAt linkState m _ := faster_fold_or (A := A) (List.range m.links) first
      rcases hor with hfold | hfold
      · exact hminIndex.trans hfold
      · rw [← hminIndex] at hfold
        exact absurd hfold hdown
    rw [hstay] at hdown hne hapart hroom
    rw [hmaxIndex] at hne hapart hstable hroom
    refine ⟨first, hfirst, hdown, ?_, hne, hapart, hstable, hroom⟩
    have hnone := (faster_fold_eq_iff (A := A) hdown).mp (hminIndex.symm.trans hstay)
    intro ind hind
    exact hnone ind (List.mem_range.mpr hind)

theorem findExtremes_place (he : findExtremes A linkState m s.lastSplittingIndexList = .ok e)
    (hm : Sized m) : ∃ cid, m.cidList[e.minIndex]? = some cid := by
  obtain ⟨first, hfirst, -, hminIndex, -⟩ := findExtremes_eq he
  have hor : _ ∨ upAt linkState m _ := faster_fold_or (A := A) (List.range m.links) first
  rcases hor with hfold | ⟨cid, hcid, -⟩
  · have hlt : first < m.cidList.length := by
      rw [hm.cidList]
      exact List.mem_range.mp (List.mem_of_find?_eq_some hfirst)
    rw [hminIndex, hfold]
    exact ⟨_, List.getElem?_eq_getElem hlt⟩
  · rw [hminIndex]
    exact ⟨cid, hcid⟩

theorem moved_noneFed_iff {shares' : List ℕ}
    (h : moveUnits s.lastSplittingIndexList e.maxIndex e.minIndex (decreaseStep s e.maxIndex) =
      .ok shares') (hmoves : Moves A m s e)
    (hplace : ∃ cid, m.cidList[e.minIndex]? = some cid) :
    NoneFed linkState m s.lastSplittingIndexList shares' ↔
      ¬ (¬ upAt linkState m e.minIndex ∧ e.maxIndex ≠ e.minIndex ∧ Moves A m s e ∧
        s.lastSplittingIndexList.getD e.minIndex 0 + decreaseStep s e.maxIndex < 256) := by
  obtain ⟨hpos, hle, hbyte⟩ := decreaseStep_bounds hmoves.2.2
  have hstep : ∀ z, s.lastSplittingIndexList[e.maxIndex]? = some z →
      decreaseStep s e.maxIndex ≤ z := by
    intro z hz
    rwa [List.getD_eq_getElem?_getD, hz, Option.getD_some] at hle
  constructor
  · rintro hnone ⟨hdown, hne, -, hroom⟩
    obtain ⟨cid, hcid⟩ := hplace
    obtain ⟨x, hx⟩ := moveUnits_place h
    rw [List.getD_eq_getElem?_getD, hx, Option.getD_some] at hroom
    have hgiven := moveUnits_dst h hne hx
    have hle' := hnone e.minIndex cid x _ hcid (fun hup => hdown ((upAt_iff hcid).mpr hup)) hx
      hgiven
    omega
  · intro hsafe ind cid x y hcid hdown hx hy
    by_cases hmin : ind = e.minIndex
    · subst hmin
      by_cases hsame : e.maxIndex = e.minIndex
      · exact moveUnits_le h hstep (.inr hsame) hx hy
      · have hfull : 256 ≤ x + decreaseStep s e.maxIndex := by
          by_contra hroom
          apply hsafe
          refine ⟨fun hup => hdown ((upAt_iff hcid).mp hup), hsame, hmoves, ?_⟩
          rw [List.getD_eq_getElem?_getD, hx, Option.getD_some]
          omega
        have hgiven := moveUnits_dst h hsame hx
        rw [hy] at hgiven
        have hyv := Option.some.inj hgiven
        omega
    · exact moveUnits_le h hstep (.inl hmin) hx hy

/-- The delay based control gives units to a link that is down exactly in the state
`FeedsDown` describes. -/
theorem delayAlgorithm_noneFed_iff (A : DelayArith δ) (linkState : LinkState)
    (m : RxMeasurement δ) (s : GmaRxControl) {s' : GmaRxControl} {d : SplittingDecision}
    (hsizes : checkSizes m = .ok ()) (h : delayAlgorithm A linkState m s = .ok (s', d)) :
    NoneFed linkState m (initSplitting A linkState m s).lastSplittingIndexList d.splitIndexList ↔
      ¬ FeedsDown A linkState m (initSplitting A linkState m s) := by
  have hm := sized_of_checkSizes hsizes
  simp only [delayAlgorithm, bind_eq_ok] at h
  generalize initSplitting A linkState m s = s₀ at h ⊢
  obtain ⟨e, he, ⟨s₁, moved⟩, h₁, s₂, h₂, ⟨s₃, update⟩, h₃, -, -, heq⟩ := h
  cases pure_eq_ok.mp heq
  show NoneFed linkState m s₀.lastSplittingIndexList s₃.lastSplittingIndexList ↔ _
  obtain ⟨hloss, hsame⟩ := compareLoss_noneFed h₃ hm
  rw [(saveOwd_kept h₂).2] at hloss
  rw [feedsDown_iff he]
  rcases delayStep_cases h₁ with ⟨rfl, hno, hlist⟩ | ⟨rfl, hmoves, hmove⟩
  · rw [hlist] at hloss
    exact ⟨fun _ hfeeds => hno hfeeds.2.2.1, fun _ => hloss⟩
  · obtain rfl : s₃ = s₂ := hsame rfl
    rw [(saveOwd_kept h₂).2]
    exact moved_noneFed_iff hmove hmoves (findExtremes_place he hm)

open RxSystem

/-- The second link fails, then the first one too, whose units nobody can take; the second
comes up again and is measured to be the faster one. -/
def bothDown : List (RxOp ℤ) :=
  [.decide .delay (twoLinks [20, 20]), .link (.down .ctrFailed 1), .linkDownTsu 1,
    .link (.down .ctrFailed 0), .linkDownTsu 0, .link (.up .ctrFailed 1),
    .decide .delay (twoLinks [20, 5])]

def firstStillDown : RxSystem := (RxSystem.machine wholeNumbers noOther).exec fourUnits bothDown

theorem delayAlgorithm_noneFed_start :
    NoneFed fourUnits.linkState (twoLinks [20, 5]) [4, 0] [3, 1] ↔
      ¬ FeedsDown wholeNumbers fourUnits.linkState (twoLinks [20, 5])
        (initSplitting wholeNumbers fourUnits.linkState (twoLinks [20, 5]) fourUnits.rx) :=
  delayAlgorithm_noneFed_iff wholeNumbers fourUnits.linkState (twoLinks [20, 5]) fourUnits.rx
    (d := { update := true, splitIndexList := [3, 1] }) (by decide) rfl

/-- The first link is down and gets the unit of the second one back. -/
theorem dead_link_fed :
    (RxSystem.machine wholeNumbers noOther).Reaches fourUnits bothDown firstStillDown ∧
      ¬ firstStillDown.linkState.isLinkUp 0 ∧ firstStillDown.linkState.isLinkUp 1 ∧
      ∃ s' d, delayAlgorithm wholeNumbers firstStillDown.linkState (twoLinks [5, 20])
          firstStillDown.rx = .ok (s', d) ∧
        firstStillDown.rx.lastSplittingIndexList = [3, 1] ∧ d.splitIndexList = [4, 0] ∧
        ¬ NoneFed firstStillDown.linkState (twoLinks [5, 20]) [3, 1] [4, 0] := by
  refine ⟨Machine.Permits.reaches (by decide), by decide, by decide, _, _, rfl, by decide,
    by decide, ?_⟩
  intro h
  exact absurd (h 0 0 3 4 rfl (by decide) rfl rfl) (by decide)

end GmaRxControl
end NetGymSim.Gma

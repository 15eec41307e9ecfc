import NetGymSim.Gma.ControlQueue
import NetGymSim.Lib.ExceptFold

/-!
# The receiver's traffic splitting

The delay algorithms of `GmaRxControl` and its answer to the failure of a link. Shares are
bytes, and what the source stores in one is taken modulo 256. The delays and losses are
doubles; the algorithms only compare them, and `DelayArith` holds these comparisons, so that
nothing here depends on how doubles round. An `at` out of range and a failed assertion end the
program.
-/

namespace NetGymSim.Gma
open NetGymSim.Lib

inductive RxAlgorithm
  | delay | congDelay | defaultLink | rlSplit | qosSteer | gma | gma2
  deriving DecidableEq, Repr

inductive RxFault
  | linkIsZero | sizeMismatch | outOfRange | noActiveLink | cidUnknown | defaultNotMeasured
  | sumMismatch | unsupportedBurst | stillLooping | notImplemented
  deriving DecidableEq, Repr

structure DelayArith (δ : Type) where
  zero : δ
  lt : δ → δ → Bool
  /-- `max - min > m_delayThresh`. -/
  apart : δ → δ → Bool
  /-- `max - min <= m_delayThresh`, which is not the negation for a double that is no number. -/
  close : δ → δ → Bool
  toInt : δ → ℤ
  intLe : ℤ → δ → Bool
  /-- `max > min * LOSS_ALGORITHM_BOUND`. -/
  lossier : δ → δ → Bool
  /-- `loss > CONGESTION_LOSS_THRESHOLD`. -/
  lossy : δ → Bool

structure RxMeasurement (δ : Type) where
  links : ℕ
  cidList : List Cid := []
  delayThisInterval : List Bool := []
  delayList : List δ := []
  minOwdLongTerm : List δ := []
  lossRateList : List δ := []
  highDelayRatioList : List δ := []
  delayViolationPktNumList : List ℕ := []
  totalPktNumList : List ℕ := []
  splittingBurstRequirementEst : ℕ := 0

structure GmaRxControl where
  algorithm : RxAlgorithm := .delay
  splittingBurst : ℕ := 1
  lastSplittingIndexList : List ℕ := []
  decreaseCounter : List ℕ := []
  lastOwd : List ℤ := []
  enableAdaptiveStep : Bool := true
  enableStableAlgorithm : Bool := true
  enableLossAlgorithm : Bool := true
  adaptiveSplittingBurst : Bool := false
  flowActive : Bool := false
  deriving DecidableEq, Repr

/-- `vector::at`. -/
def vectorAt {α : Type} (v : List α) (ind : ℕ) : Except RxFault α :=
  match v[ind]? with
  | some a => .ok a
  | none => .error .outOfRange

def vectorSet {α : Type} (v : List α) (ind : ℕ) (a : α) : Except RxFault (List α) :=
  if ind < v.length then .ok (v.set ind a) else .error .outOfRange

def cidToIndex (cid : Cid) : List Cid → Option ℕ
  | [] => none
  | c :: cids =>
      match cidToIndex cid cids with
      | some ind => some (ind + 1)
      | none => if c = cid then some 0 else none

def shareOf (splittingBurst : ℕ) (cid : Cid) (cidList : List Cid) : List ℕ :=
  cidList.map fun c => if c = cid then splittingBurst else 0

structure Extremes (δ : Type) where
  minDelay : δ
  minIndex : ℕ
  maxDelay : δ
  maxIndex : ℕ

structure LossExtremes (δ : Type) where
  initialLoss : Bool
  minLoss : δ
  minLossInd : ℕ
  maxLoss : δ
  maxLossInd : ℕ

namespace GmaRxControl

def stepThresh : ℕ := 4

def checkSizes {δ : Type} (m : RxMeasurement δ) : Except RxFault Unit :=
  if m.links = 0 then .error .linkIsZero
  else if m.cidList.length = m.links ∧ m.delayThisInterval.length = m.links ∧
      m.delayList.length = m.links ∧ m.minOwdLongTerm.length = m.links ∧
      m.lossRateList.length = m.links then .ok ()
  else .error .sizeMismatch

section Delay
variable {δ : Type} (A : DelayArith δ) (linkState : LinkState) (m : RxMeasurement δ)

def initSplitting (s : GmaRxControl) : GmaRxControl :=
  if s.lastSplittingIndexList = [] then
    { s with
      lastSplittingIndexList := shareOf s.splittingBurst linkState.defaultLinkCid m.cidList
      decreaseCounter := s.decreaseCounter ++ List.replicate m.links 1
      lastOwd := if s.enableStableAlgorithm then s.lastOwd ++ m.delayList.map A.toInt
        else s.lastOwd }
  else s

def initialExtremes (shares : List ℕ) : List ℕ → Except RxFault (Extremes δ)
  | [] => .error .noActiveLink
  | ind :: inds => do
      let share ← vectorAt shares ind
      if share ≠ 0 then
        let delay ← vectorAt m.delayList ind
        return ⟨delay, ind, delay, ind⟩
      else initialExtremes shares inds

def extremesTurn (shares : List ℕ) (e : Extremes δ) (ind : ℕ) : Except RxFault (Extremes δ) := do
  let cid ← vectorAt m.cidList ind
  if linkState.isLinkUp cid then
    let delay ← vectorAt m.delayList ind
    let e := if A.lt delay e.minDelay then { e with minDelay := delay, minIndex := ind } else e
    if A.lt e.maxDelay delay then
      let share ← vectorAt shares ind
      return if share ≠ 0 then { e with maxDelay := delay, maxIndex := ind } else e
    else return e
  else return e

def findExtremes (shares : List ℕ) : Except RxFault (Extremes δ) := do
  let e ← initialExtremes m shares (List.range m.links)
  (List.range m.links).foldlM (extremesTurn A linkState m shares) e

def moveUnits (shares : List ℕ) (src dst step : ℕ) : Except RxFault (List ℕ) := do
  let x ← vectorAt shares src
  let shares ← vectorSet shares src ((x + 256 - step) % 256)
  let y ← vectorAt shares dst
  vectorSet shares dst ((y + step) % 256)

def countDecrease (s : GmaRxControl) (maxIndex : ℕ) : List ℕ :=
  s.decreaseCounter.zipIdx.map fun c => if c.2 = maxIndex then (c.1 + 1) % 256 else 1

def moveByDelay (s : GmaRxControl) (e : Extremes δ) : Except RxFault GmaRxControl := do
  if s.enableAdaptiveStep then
    let counters := s.countDecrease e.maxIndex
    let counter ← vectorAt counters e.maxIndex
    let share ← vectorAt s.lastSplittingIndexList e.maxIndex
    let step := min (max (counter - stepThresh) 1) share
    let shares ← moveUnits s.lastSplittingIndexList e.maxIndex e.minIndex step
    return { s with lastSplittingIndexList := shares, decreaseCounter := counters }
  else
    let shares ← moveUnits s.lastSplittingIndexList e.maxIndex e.minIndex 1
    return { s with lastSplittingIndexList := shares }

def notDecreasing (s : GmaRxControl) (ind : ℕ) : Except RxFault Bool := do
  if s.enableStableAlgorithm then
    let owd ← vectorAt s.lastOwd ind
    let delay ← vectorAt m.delayList ind
    return A.intLe owd delay
  else return true

def delayStep (s : GmaRxControl) (e : Extremes δ) : Except RxFault (GmaRxControl × Bool) := do
  if A.apart e.maxDelay e.minDelay then
    if ← notDecreasing A m s e.maxIndex then
      let share ← vectorAt s.lastSplittingIndexList e.maxIndex
      if share > 0 then
        let s ← moveByDelay s e
        return (s, true)
      else return (s, false)
    else return (s, false)
  else return ({ s with decreaseCounter := s.decreaseCounter.map fun _ => 1 }, false)

def owdTurn (lastOwd : List ℤ) (ind : ℕ) : Except RxFault (List ℤ) := do
  let delay ← vectorAt m.delayList ind
  vectorSet lastOwd ind (A.toInt delay)

def saveOwd (s : GmaRxControl) : Except RxFault GmaRxControl := do
  if s.enableStableAlgorithm then
    let lastOwd ← (List.range m.links).foldlM (owdTurn A m) s.lastOwd
    return { s with lastOwd }
  else return s

def lossTurn (shares : List ℕ) (e : LossExtremes δ) (ind : ℕ) :
    Except RxFault (LossExtremes δ) := do
  let cid ← vectorAt m.cidList ind
  if linkState.isLinkUp cid then
    let loss ← vectorAt m.lossRateList ind
    if ¬ e.initialLoss then return ⟨true, loss, ind, loss, ind⟩
    else
      let e := if A.lt loss e.minLoss then { e with minLoss := loss, minLossInd := ind } else e
      if A.lt e.maxLoss loss then
        let share ← vectorAt shares ind
        return if share ≠ 0 then { e with maxLoss := loss, maxLossInd := ind } else e
      else return e
  else return e

def steerTurn (splittingBurst : ℕ) (v : List ℕ × Bool) (ind : ℕ) :
    Except RxFault (List ℕ × Bool) := do
  let cid ← vectorAt m.cidList ind
  if cid = linkState.defaultLinkCid then
    let shares ← vectorSet v.1 ind splittingBurst
    return (shares, true)
  else
    let shares ← vectorSet v.1 ind 0
    return (shares, v.2)

def steerToDefault (s : GmaRxControl) (e : Extremes δ) : Except RxFault (GmaRxControl × Bool) := do
  if s.splittingBurst = 1 ∧ e.minIndex ≠ e.maxIndex ∧
      linkState.isLinkUp linkState.defaultLinkCid then
    match cidToIndex linkState.defaultLinkCid linkState.cidList with
    | none => .error .cidUnknown
    | some index =>
        let share ← vectorAt s.lastSplittingIndexList index
        if share = s.splittingBurst then return (s, false)
        else
          let v ← (List.range m.links).foldlM (steerTurn linkState m s.splittingBurst)
            (s.lastSplittingIndexList, false)
          if v.2 then return ({ s with lastSplittingIndexList := v.1 }, true)
          else .error .defaultNotMeasured
  else return (s, false)

def lossStep (s : GmaRxControl) (e : Extremes δ) : Except RxFault (GmaRxControl × Bool) := do
  let l ← (List.range m.links).foldlM (lossTurn A linkState m s.lastSplittingIndexList)
    ⟨false, A.zero, 0, A.zero, 0⟩
  if A.lossier l.maxLoss l.minLoss then
    let share ← vectorAt s.lastSplittingIndexList l.maxLossInd
    if share > 0 then
      let shares ← moveUnits s.lastSplittingIndexList l.maxLossInd l.minLossInd 1
      return ({ s with lastSplittingIndexList := shares }, true)
    else return (s, false)
  else steerToDefault linkState m s e

def compareLoss (s : GmaRxControl) (e : Extremes δ) (moved : Bool) :
    Except RxFault (GmaRxControl × Bool) :=
  if ¬ moved ∧ A.close e.maxDelay e.minDelay ∧ s.enableLossAlgorithm then
    lossStep A linkState m s e
  else .ok (s, moved)

def sumRatio (shares : List ℕ) (links : ℕ) : Except RxFault ℕ :=
  (List.range links).foldlM (fun sum ind => do
    let share ← vectorAt shares ind
    return (sum + share) % 256) 0

def checkSum (s : GmaRxControl) (links : ℕ) : Except RxFault Unit := do
  let sum ← sumRatio s.lastSplittingIndexList links
  if sum = s.splittingBurst then return () else .error .sumMismatch

def decision (s : GmaRxControl) (update : Bool) : SplittingDecision :=
  { update, splitIndexList := s.lastSplittingIndexList }

def delayAlgorithm (s : GmaRxControl) : Except RxFault (GmaRxControl × SplittingDecision) := do
  let s := initSplitting A linkState m s
  let e ← findExtremes A linkState m s.lastSplittingIndexList
  let (s, moved) ← delayStep A m s e
  let s ← saveOwd A m s
  let (s, update) ← compareLoss A linkState m s e moved
  checkSum s m.links
  return (s, s.decision update)

def congDelayAlgorithm (s : GmaRxControl) :
    Except RxFault (GmaRxControl × SplittingDecision) := do
  let s := initSplitting A linkState m s
  let index := (cidToIndex linkState.defaultLinkCid linkState.cidList).getD 0
  let share ← vectorAt s.lastSplittingIndexList index
  if share = s.splittingBurst then
    let loss ← vectorAt m.lossRateList 0
    if A.lossy loss then delayAlgorithm A linkState m s else return (s, {})
  else delayAlgorithm A linkState m s

/-- `other` stands for the algorithms that do not compare delays. -/
def getTrafficSplittingDecision
    (other : GmaRxControl → Except RxFault (GmaRxControl × SplittingDecision))
    (s : GmaRxControl) : Except RxFault (GmaRxControl × SplittingDecision) := do
  checkSizes m
  match s.algorithm with
  | .delay | .gma => delayAlgorithm A linkState m s
  | .congDelay => congDelayAlgorithm A linkState m s
  | .defaultLink | .rlSplit => return (s, {})
  | .qosSteer | .gma2 => other s

end Delay

section LinkDown
variable (linkState : LinkState)

def anyLinkUp : List ℕ → Except RxFault Bool
  | [] => .ok false
  | ind :: inds => do
      let cid ← vectorAt linkState.cidList ind
      if linkState.isLinkUp cid then return true else anyLinkUp inds

def distribute : ℕ → List ℕ → ℕ → ℕ → Except RxFault (List ℕ)
  | _, shares, 0, _ => .ok shares
  | 0, _, _ + 1, _ => .error .stillLooping
  | fuel + 1, shares, units + 1, iterInd => do
      let cid ← vectorAt linkState.cidList iterInd
      let next := (iterInd + 1) % shares.length % 256
      if linkState.isLinkUp cid then
        let share ← vectorAt shares iterInd
        let shares ← vectorSet shares iterInd ((share + 1) % 256)
        distribute fuel shares units next
      else distribute fuel shares (units + 1) next

def linkDownTsu (s : GmaRxControl) (cid : Cid) :
    Except RxFault (GmaRxControl × SplittingDecision) := do
  if s.algorithm = .defaultLink then return (s, s.decision false)
  else if s.lastSplittingIndexList = [] then
    if cid ≠ linkState.defaultLinkCid then
      return (s, { update := true
                   splitIndexList :=
                    shareOf s.splittingBurst linkState.defaultLinkCid linkState.cidList })
    else return (s, s.decision false)
  else
    match cidToIndex cid linkState.cidList with
    | none => .error .cidUnknown
    | some failedLink =>
        let splittingIndex ← vectorAt s.lastSplittingIndexList failedLink
        if splittingIndex = 0 then return (s, s.decision false)
        else
          let size := s.lastSplittingIndexList.length
          if ← anyLinkUp linkState (List.range size) then
            let shares ← vectorSet s.lastSplittingIndexList failedLink 0
            let shares ← distribute linkState ((splittingIndex + 1) * size) shares splittingIndex 0
            let s := { s with lastSplittingIndexList := shares }
            checkSum s size
            return (s, s.decision true)
          else return (s, s.decision false)

end LinkDown
end GmaRxControl
end NetGymSim.Gma

import NetGymSim.Gma.RxControl

/-!
# Further decisions of the receiver

The delay violation algorithm from its link failure detection on, the QoS steering, the actions
of a learner and the decisions for one link. The ratios that the delay violation algorithm
computes with doubles come in with the measurement, as `Inputs`, and so does the logarithm of
its adaptive burst; what it makes of them is exact. Timers of the QoS tests are left out.
-/

namespace NetGymSim.Gma
open NetGymSim.Lib

structure SplitArith (δ : Type) extends DelayArith δ where
  /-- `(double)share / m_splittingBurst`. -/
  ratio : ℕ → ℕ → δ
  /-- `std::round(s * m_splittingBurst + m_roundingScaler)`. -/
  roundDown : δ → ℕ → ℤ
  /-- `std::round((m_splittingBurst - decreaseBurstSum) * s / equalOrIncreaseRatioSum)`, with the
  ratios that the last sum is of. -/
  roundShare : ℤ → δ → List δ → ℤ
  sumIsZero : List δ → Bool
  sumsToOne : List δ → Bool
  /-- The queueing delay in whole milliseconds. -/
  queueing : δ → δ → ℕ
  notNegative : δ → Bool
  /-- Below the targets of the QoS flow. -/
  meetsDelay : δ → Bool
  meetsLoss : δ → Bool

structure Inputs (δ : Type) where
  newRatio : List δ := []
  estBurstRequirement : ℤ := 0
  backupLinkCid : Cid := 0

structure ViolationState (δ : Type) where
  rx : GmaRxControl
  linkState : LinkState
  lastRatio : List δ := []

structure RlAction where
  links : ℕ
  cidList : List Cid
  ratio : List ℕ
  deriving DecidableEq

namespace GmaRxControl

def minSplittingBurst : ℕ := 8
def maxSplittingBurst : ℕ := 128

def setterBursts : List ℕ := [1, 4, 8, 16, 32, 128]

def actionBursts : List ℕ := [1, 4, 8, 16, 32, 64, 128]

/-- The branch for a burst of 0 stands behind an assertion that 0 does not pass. -/
def setSplittingBurst (s : GmaRxControl) (splittingBurst : ℕ) : Except RxFault GmaRxControl :=
  if splittingBurst ∉ setterBursts then .error .unsupportedBurst
  else if splittingBurst = 0 then
    .ok { s with splittingBurst := minSplittingBurst, adaptiveSplittingBurst := true }
  else .ok { s with splittingBurst, adaptiveSplittingBurst := false }

section Rounding

/-- `std::max_element`, the first of the largest entries. -/
def maxElement (shares : List ℕ) : ℕ := shares.idxOf (shares.max?.getD 0)

def addUnits : ℕ → List ℕ → List ℕ
  | 0, shares => shares
  | units + 1, shares =>
      let index := maxElement shares
      addUnits units (shares.set index ((shares.getD index 0 + 1) % 256))

def removeUnits : ℕ → List ℕ → List ℕ
  | 0, shares => shares
  | units + 1, shares =>
      let index := maxElement shares
      removeUnits units (shares.set index ((shares.getD index 0 + 255) % 256))

def fixRounding (splittingBurst : ℕ) (shares : List ℕ) : List ℕ :=
  let raised := addUnits (splittingBurst - shares.sum) shares
  removeUnits (raised.sum - splittingBurst) raised

def byte (x : ℤ) : ℕ := (x % 256).toNat

variable {δ : Type} (R : SplitArith δ)

def burstPerLink (splittingBurst : ℕ) (newRatio lastRatio : List δ) : List ℕ :=
  let links := newRatio.zip lastRatio
  let decreased := links.filter fun p => R.lt p.1 p.2
  let others := (links.filter fun p => ¬ R.lt p.1 p.2).map Prod.fst
  let rest := splittingBurst - (decreased.map fun p => R.roundDown p.1 splittingBurst).sum
  links.map fun p =>
    byte (if R.lt p.1 p.2 then R.roundDown p.1 splittingBurst else R.roundShare rest p.1 others)

def keepsRatio (newRatio lastRatio : List δ) : List δ :=
  ((newRatio.zip lastRatio).filter fun p => ¬ R.lt p.1 p.2).map Prod.fst

end Rounding

section DelayViolation
variable {δ : Type} (R : SplitArith δ) (m : RxMeasurement δ) (v : ViolationState δ)

def initShares : List ℕ :=
  if v.rx.lastSplittingIndexList = [] then
    shareOf v.rx.splittingBurst v.linkState.defaultLinkCid m.cidList
  else v.rx.lastSplittingIndexList

def initRatio : List δ :=
  if v.lastRatio = [] then
    ((initShares m v).take m.links).map fun share => R.ratio share v.rx.splittingBurst
  else v.lastRatio

/-- The loops that follow read an entry for each measured link. -/
def initViolation : Except RxFault (ViolationState δ) :=
  if (initShares m v).length < m.links then .error .outOfRange
  else .ok { v with
    rx := { v.rx with lastSplittingIndexList := initShares m v }
    lastRatio := initRatio R m v }

def linkRows (rx : GmaRxControl) : List (Cid × ℕ × ℕ) :=
  m.cidList.zip (rx.lastSplittingIndexList.zip m.totalPktNumList)

def noData (linkState : LinkState) (row : Cid × ℕ × ℕ) : Bool :=
  linkState.isLinkUp row.1 ∧ row.2.1 > 0 ∧ row.2.2 = 0

def noDataDown (linkState : LinkState) (cid : Cid) : LinkState := (linkState.ctrlMsgDown cid).1

/-- A link with a share but without data is taken down, when the burst is the largest one. With
one link in use the flow has to be active, with more there have to be enough packets. -/
def linkFailure : Except RxFault (ViolationState δ × Bool) :=
  let rows := linkRows m v.rx
  let active := rows.filter fun row => row.2.1 > 0
  let sumPkt := ((rows.filter fun row => v.linkState.isLinkUp row.1).map fun row => row.2.2).sum
  match active with
  | [] => .error .noActiveLink
  | [row] =>
      if noData v.linkState row ∧ v.rx.splittingBurst = maxSplittingBurst ∧ v.rx.flowActive then
        .ok ({ v with
          linkState := noDataDown v.linkState row.1
          rx := { v.rx with flowActive := false } }, true)
      else .ok (v, false)
  | _ =>
      let failed := rows.filter fun row => noData v.linkState row ∧
        v.rx.splittingBurst = maxSplittingBurst ∧ sumPkt ≥ 2 * v.rx.splittingBurst
      .ok ({ v with linkState := failed.foldl (fun l row => noDataDown l row.1) v.linkState },
        decide (failed ≠ []))

def noteActive : ViolationState δ :=
  let hasData := (linkRows m v.rx).any fun row =>
    v.linkState.isLinkUp row.1 ∧ row.2.1 > 0 ∧ row.2.2 > 0
  { v with rx := { v.rx with flowActive := v.rx.flowActive || hasData } }

def adaptiveBurst (estBurstRequirement : ℤ) : ℕ :=
  2 ^ (min (max 3 estBurstRequirement) 7).toNat

def newBurst (inputs : Inputs δ) (rx : GmaRxControl) : ℕ :=
  if rx.adaptiveSplittingBurst then adaptiveBurst inputs.estBurstRequirement
  else rx.splittingBurst

def takeShares (newRatio : List δ) (shares : List ℕ) : ViolationState δ × Bool :=
  if v.rx.lastSplittingIndexList.take m.links ≠ shares then
    ({ v with
      rx := { v.rx with lastSplittingIndexList := shares }
      lastRatio := newRatio }, true)
  else (v, false)

def applyRatio (inputs : Inputs δ) : Except RxFault (ViolationState δ × Bool) :=
  let newRatio := inputs.newRatio
  let splittingBurst := newBurst inputs v.rx
  let rounded := burstPerLink R splittingBurst newRatio v.lastRatio
  if newRatio = [] then .ok (v, false)
  else if newRatio.length ≠ m.links ∨ v.lastRatio.length < m.links then .error .outOfRange
  else if R.sumIsZero (keepsRatio R newRatio v.lastRatio) ∨ ¬ R.sumsToOne newRatio ∨
      rounded.sum = 0 then .error .sumMismatch
  else .ok (takeShares m { v with rx := { v.rx with splittingBurst } } newRatio
    (fixRounding splittingBurst rounded))

def queueingDelayTargetMs : ℕ := 10

def queueingDelay (row : ℕ × Bool × δ × δ) : ℕ :=
  if row.1 > 0 ∧ row.2.1 then
    let delay := R.queueing row.2.2.1 row.2.2.2
    min 254 (if delay < queueingDelayTargetMs then 0 else delay)
  else 255

def queueingDelays (rx : GmaRxControl) : List ℕ :=
  let rows := rx.lastSplittingIndexList.zip
    (m.delayThisInterval.zip (m.delayList.zip m.minOwdLongTerm))
  let active := rows.filter fun row => row.1 > 0
  let high := active.filter fun row =>
    row.2.1 ∧ R.queueing row.2.2.1 row.2.2.2 ≥ queueingDelayTargetMs
  if 0 < high.length ∧ high.length < active.length then rows.map (queueingDelay R) else []

def delayViolationAlgorithm (inputs : Inputs δ) :
    Except RxFault (ViolationState δ × SplittingDecision) := do
  if m.delayViolationPktNumList.length ≠ m.links ∨ m.totalPktNumList.length ≠ m.links then
    .error .sizeMismatch
  else
    let v ← initViolation R m v
    let (v, failed) ← linkFailure m v
    let (v, changed) ← applyRatio R m (noteActive m v) inputs
    checkSum v.rx m.links
    return (v, { v.rx.decision (failed || changed) with queueingDelay := queueingDelays R m v.rx })

end DelayViolation

section QosSteer
variable {δ : Type} (R : SplitArith δ) (linkState : LinkState) (m : RxMeasurement δ)

def initSteer (s : GmaRxControl) : GmaRxControl :=
  if s.lastSplittingIndexList = [] then
    { s with
      lastSplittingIndexList := shareOf s.splittingBurst linkState.defaultLinkCid m.cidList }
  else s

def steerTo (s : GmaRxControl) (ind : ℕ) : Except RxFault GmaRxControl :=
  if s.lastSplittingIndexList.length < m.links then .error .outOfRange
  else .ok { s with
    lastSplittingIndexList :=
      (List.range m.links).map (fun i => if i = ind then s.splittingBurst else 0) ++
        s.lastSplittingIndexList.drop m.links }

def qosOk (ind : ℕ) : Except RxFault Bool := do
  let cid ← vectorAt m.cidList ind
  if linkState.isLinkUp cid then
    let highDelay ← vectorAt m.highDelayRatioList ind
    let loss ← vectorAt m.lossRateList ind
    return R.notNegative highDelay ∧ R.meetsDelay highDelay ∧ R.notNegative loss ∧ R.meetsLoss loss
  else return false

def qosOkTurn (primaryLinkIndex : ℕ) (list : List ℕ) (ind : ℕ) : Except RxFault (List ℕ) := do
  if ind = primaryLinkIndex then return list
  else
    let ok ← qosOk R linkState m ind
    return if ok then list ++ [ind] else list

def readMeasured (inds : List ℕ) : Except RxFault Unit :=
  if ∀ ind ∈ inds, ind < m.highDelayRatioList.length then .ok () else .error .outOfRange

def indexOf (cid : Cid) : ℕ := (cidToIndex cid linkState.cidList).getD 0

def testedLinks (backupLinkCid : Cid) : List ℕ :=
  let primary := indexOf linkState linkState.defaultLinkCid
  let backup := indexOf linkState backupLinkCid
  backup :: ((m.cidList.zipIdx.filter fun p => p.2 ≠ primary ∧ p.2 ≠ backup).map fun p =>
    indexOf linkState p.1)

def steerTraffic (s : GmaRxControl) (ind : ℕ) :
    Except RxFault (GmaRxControl × SplittingDecision) := do
  let s ← steerTo m s ind
  return (s, s.decision true)

/-- What follows from the links that meet the targets. The traffic stays where it is when no
other link has any, or when the link that has it is the one that passed. -/
def qosVerdict (backupLinkCid : Cid) (s : GmaRxControl) (overOthers : ℕ) :
    List ℕ → Except RxFault (GmaRxControl × SplittingDecision)
  | [] => do
      readMeasured m (testedLinks linkState m backupLinkCid)
      if overOthers = 0 then return (s, s.decision false)
      else steerTraffic m s (indexOf linkState linkState.defaultLinkCid)
  | [ind] =>
      if overOthers ≠ 0 ∧ s.lastSplittingIndexList[ind]? = some s.splittingBurst then
        .ok (s, s.decision false)
      else steerTraffic m s ind
  | _ => .error .notImplemented

def qosSteerAlgorithm (inputs : Inputs δ) (s : GmaRxControl) :
    Except RxFault (GmaRxControl × SplittingDecision) := do
  let s := initSteer linkState m s
  let primary := indexOf linkState linkState.defaultLinkCid
  if s.splittingBurst ≠ 1 then .error .unsupportedBurst
  else if s.lastSplittingIndexList.length < m.links then .error .outOfRange
  else
    let okList ← (List.range m.links).foldlM (qosOkTurn R linkState m primary) []
    qosVerdict linkState m inputs.backupLinkCid s
      ((s.lastSplittingIndexList.take m.links).eraseIdx primary).sum okList

end QosSteer

section Other
variable (linkState : LinkState)

/-- A link of an action. The first action is not saved, and collects the ratios in its own
order. -/
def rlTurn (v : GmaRxControl × List ℕ × Bool) (link : Cid × ℕ) :
    Except RxFault (GmaRxControl × List ℕ × Bool) := do
  let (s, collected, update) := v
  if s.lastSplittingIndexList = [] then
    return (s, collected ++ List.replicate (linkState.cidList.count link.1) link.2, true)
  else
    let index := indexOf linkState link.1
    let share ← vectorAt s.lastSplittingIndexList index
    if share ≠ link.2 then
      return ({ s with
        lastSplittingIndexList := s.lastSplittingIndexList.set index link.2 }, collected, true)
    else return (s, collected, update)

def takeBurst (s : GmaRxControl) (sumRatio : ℕ) : Except RxFault GmaRxControl :=
  if sumRatio = s.splittingBurst then .ok s
  else if sumRatio ∈ actionBursts then .ok { s with splittingBurst := sumRatio }
  else .error .unsupportedBurst

def rlDecision (action : RlAction) (s : GmaRxControl) :
    Except RxFault (GmaRxControl × SplittingDecision) := do
  if action.links = 0 then .error .linkIsZero
  else if action.cidList.length ≠ action.links ∨ action.ratio.length ≠ action.links then
    .error .sizeMismatch
  else
    let (s, collected, update) ←
      (action.cidList.zip action.ratio).foldlM (rlTurn linkState) (s, [], false)
    let splittingIndexList :=
      if s.lastSplittingIndexList = [] then collected else s.lastSplittingIndexList
    let sumRatio ← sumRatio splittingIndexList action.links
    let s ← takeBurst s sumRatio
    return (s, { update, splitIndexList := splittingIndexList })

def generateTrafficSplittingDecision (s : GmaRxControl) (cid : Cid) (reverse : Bool) :
    GmaRxControl × SplittingDecision :=
  let shares := shareOf s.splittingBurst cid linkState.cidList
  (if reverse then s else { s with lastSplittingIndexList := shares },
    { update := true, reverse, splitIndexList := shares })

end Other
end GmaRxControl
end NetGymSim.Gma

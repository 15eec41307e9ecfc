import NetGymSim.Gma.OwdBaseline
import NetGymSim.Gma.RxControl

/-!
# Measurement cycles

`MeasurementManager` with its devices, one for each link in the order of `AddDevice`. Times are
nanoseconds, OWDs milliseconds of type `uint32_t`; packet counters are natural numbers. Doubles
are opaque and `MeasureArith` holds what is computed with them. `GmaRxControl` answers each call
of `GetTrafficSplittingDecision`, and any answer may come. Loops over the devices count in a byte
and end only with less than 256 of them. Assertions are not checked here, so that the runs are
also those of a build without them.
-/

namespace NetGymSim.Gma.Measure
open NetGymSim.Lib

structure MeasureArith (δ : Type) where
  zero : δ
  one : δ
  minusOne : δ
  ofNat : ℕ → δ
  /-- `1.0 * a / b`. -/
  ratio : ℕ → δ → δ
  lt : δ → δ → Bool
  /-- `maxDiff < OWD_CONVERGE_THRESHOLD`. -/
  converged : δ → Bool
  /-- `PKT_NUM_WEIGHT * n`. -/
  weigh : ℕ → δ

inductive MeasureFault
  | stillLooping | negativeRtt | negativeDelay | outOfRange | sizeMismatch | noBurst
  | divisionByZero | noUpdate | notScheduled | notQos
  deriving DecidableEq, Repr

structure MeasureDevice (δ : Type) extends Gma.MeasureDevice where
  cid : Cid
  owdTargetMs : ℕ := 100
  queueingDelayTargetMs : ℕ := 10
  lastLsn : ℕ := 255
  rtt : ℕ := 0
  owdSameTimeAsRtt : ℕ := 0
  numOfInOrderPacketsPerCycle : ℕ := 0
  numOfMissingPacketsPerCycle : ℕ := 0
  numOfAbnormalPacketsPerCycle : ℕ := 0
  numOfDataPacketsPerInterval : ℕ := 0
  lastPacketOwd : ℕ := noOwd
  sumOwdPerInterval : ℕ := 0
  numOfOwdPacketsPerInterval : ℕ := 0
  numOfHighOwdPacketsPerInterval : ℕ := 0
  lastIntervalOwd : ℕ := noOwd
  lastIntervalOwdDiff : δ
  ackOwd : ℕ := 0
  numOfDelayViolationDataPacketsPerInterval : ℕ := 0

namespace MeasureDevice
variable {δ : Type} (A : MeasureArith δ) (d : MeasureDevice δ)

def initialMeasurementCycle : MeasureDevice δ :=
  { d with
    lastIntervalOwd := noOwd
    lastIntervalOwdDiff := A.one
    numOfInOrderPacketsPerCycle := 0
    numOfMissingPacketsPerCycle := 0
    numOfAbnormalPacketsPerCycle := 0 }

def violates (owdMs : ℕ) : Bool :=
  let minOwd := min d.lastMinOwd d.currentMinOwd
  minOwd ≠ noOwd ∧ owdMs > add32 minOwd d.queueingDelayTargetMs

def updateLastPacketOwd (owdMs : ℕ) (dataFlag : Bool) : MeasureDevice δ :=
  let d := { d with
    lastPacketOwd := owdMs
    numOfOwdPacketsPerInterval := d.numOfOwdPacketsPerInterval + 1
    sumOwdPerInterval := d.sumOwdPerInterval + owdMs
    currentMinOwd := min d.currentMinOwd owdMs
    currentMaxOwd := max d.currentMaxOwd owdMs }
  let d := if sub32 (add32 d.rtt owdMs) d.ackOwd > d.owdTargetMs then
      { d with numOfHighOwdPacketsPerInterval := d.numOfHighOwdPacketsPerInterval + 1 }
    else d
  if dataFlag then
    { d with
      numOfDataPacketsPerInterval := d.numOfDataPacketsPerInterval + 1
      numOfDelayViolationDataPacketsPerInterval :=
        d.numOfDelayViolationDataPacketsPerInterval + if d.violates owdMs then 1 else 0 }
  else d

def updateLastAckOwd (owdMs : ℕ) : MeasureDevice δ := { d with ackOwd := owdMs }

def updateRtt (rtt owd : ℕ) : MeasureDevice δ := { d with rtt, owdSameTimeAsRtt := owd }

def getRtt : Except MeasureFault ℕ :=
  if d.lastIntervalOwd ≠ noOwd then
    if add32 d.rtt d.lastIntervalOwd < d.owdSameTimeAsRtt then .error .negativeRtt
    else .ok (add32 d.rtt d.lastIntervalOwd - d.owdSameTimeAsRtt)
  else .ok d.rtt

def lsnDiff (x1 x2 : ℕ) : ℤ :=
  let diff : ℤ := x1 - x2
  if diff > 128 then diff - 256 else if diff < -128 then diff + 256 else diff

def updateLsn (lastLsn : ℕ) : MeasureDevice δ :=
  let diff := lsnDiff lastLsn d.lastLsn
  if d.numOfInOrderPacketsPerCycle + d.numOfAbnormalPacketsPerCycle = 0 ∨ diff = 1 then
    { d with numOfInOrderPacketsPerCycle := d.numOfInOrderPacketsPerCycle + 1, lastLsn }
  else if diff > 1 then
    { d with
      numOfMissingPacketsPerCycle := d.numOfMissingPacketsPerCycle + (diff - 1).toNat
      numOfInOrderPacketsPerCycle := d.numOfInOrderPacketsPerCycle + 1
      lastLsn }
  else { d with numOfAbnormalPacketsPerCycle := d.numOfAbnormalPacketsPerCycle + 1 }

def updateAllMinOwd : MeasureDevice δ :=
  { d with
    lastMinOwd := d.currentMinOwd
    currentMinOwd := noOwd
    lastMaxOwd := d.currentMaxOwd
    currentMaxOwd := 0 }

def startInterval : MeasureDevice δ :=
  { d with
    toMeasureDevice := d.toMeasureDevice.adjust
    sumOwdPerInterval := 0
    numOfOwdPacketsPerInterval := 0
    numOfHighOwdPacketsPerInterval := 0
    numOfDelayViolationDataPacketsPerInterval := 0
    numOfDataPacketsPerInterval := 0 }

def closeInterval : Except MeasureFault (MeasureDevice δ) :=
  if d.numOfOwdPacketsPerInterval > 0 then
    let aveOwd := d.sumOwdPerInterval / d.numOfOwdPacketsPerInterval % 4294967296
    if d.lastIntervalOwd ≠ noOwd then do
      let rtt ← d.getRtt
      let rtt := if rtt = 0 then 200 else rtt
      return { d with
        lastIntervalOwdDiff := A.ratio (sub32 aveOwd d.lastIntervalOwd) (A.ofNat rtt)
        lastIntervalOwd := aveOwd }
    else .ok { d with lastIntervalOwd := aveOwd }
  else .ok d

def lastKnown : MeasureDevice δ :=
  if d.lastIntervalOwd = noOwd then { d with lastIntervalOwd := d.lastPacketOwd } else d

def reportedDelay (senderSideOwdAdjustment : Bool) : ℕ :=
  if senderSideOwdAdjustment then d.lastIntervalOwd
  else if d.lastMinOwd = noOwd then d.lastIntervalOwd
  else if d.lastIntervalOwd > d.lastMinOwd then d.lastIntervalOwd - d.lastMinOwd
  else 0

def lossRate : δ :=
  if d.numOfMissingPacketsPerCycle > d.numOfAbnormalPacketsPerCycle then
    A.ratio (d.numOfMissingPacketsPerCycle - d.numOfAbnormalPacketsPerCycle)
      (A.ofNat (d.numOfMissingPacketsPerCycle + d.numOfInOrderPacketsPerCycle))
  else A.zero

/-- The distance to the largest minimum, capped, in the byte of a TSU. -/
def feedback (owdMax : ℕ) : ℕ :=
  if d.lastMinOwd = noOwd then 255 else min 254 (owdMax - d.lastMinOwd)

def resetMinOwd : MeasureDevice δ := { d with currentMinOwd := noOwd, currentMaxOwd := 0 }

end MeasureDevice

inductive ManagerKind
  | measurement | qos
  deriving DecidableEq, Repr

/-- A call of `GetTrafficSplittingDecision`, with the devices as the measurement left them. -/
structure Call (δ : Type) where
  devices : List (MeasureDevice δ)
  algorithm : RxAlgorithm
  splittingBurst : ℕ
  record : RxMeasurement δ

structure Answer where
  decision : SplittingDecision
  splittingBurst : ℕ
  deriving DecidableEq

/-- A manager of either class, with what it reads of its `GmaRxControl`, the calls it made and
the decisions it sent as a TSU. -/
structure MeasurementManager (δ : Type) where
  kind : ManagerKind
  algorithm : RxAlgorithm
  splittingBurst : ℕ
  qosDelayViolationTarget : δ
  qosLossTarget : δ
  maxMeasureInterval : ℕ := 10
  senderSideOwdAdjustment : Bool := true
  deviceList : List (MeasureDevice δ) := []
  measureIntervalIndex : ℕ := 0
  measureIntervalStarted : Bool := false
  measureIntervalStartTime : ℕ := 0
  measureIntervalThresh : ℕ := 0
  measurementOn : Bool := true
  lastIntervalStartSn : ℕ := 0
  measureStartSn : ℕ := 0
  previousOwdValue : List ℕ := []
  delayMeasurement : ℕ := 0
  /-- The argument of the delayed `MeasureIntervalStart`, while its event is running. -/
  delayMeasurementEvent : Option ℕ := none
  lastMinRttUpdateTime : ℕ := 0
  splittingBurstRequirementEst : ℕ := 0
  qosDuration : ℕ := 0
  /-- The duration of each QoS measurement that is running. -/
  cidToQosMeasurement : Cid → Option ℕ := fun _ => none
  cidToLastPacketN : Cid → Option ℕ := fun _ => none
  calls : List (Call δ) := []
  tsus : List SplittingDecision := []

namespace MeasurementManager
variable {δ : Type} (A : MeasureArith δ) (answer : List (Call δ) → Answer)

def milliSeconds (x : ℕ) : ℕ := x * 1000000
def minIntervalDuration : ℕ := milliSeconds 10
def maxIntervalDuration : ℕ := milliSeconds 1000
def owdOffsetUpdateInterval : ℕ := milliSeconds 12000

def snDiff (x1 x2 : ℕ) : ℤ :=
  let diff : ℤ := x1 - x2
  if diff > 8388608 then diff - 16777216 else if diff < -8388608 then diff + 16777216 else diff

section Cycle
variable (s : MeasurementManager δ)

def addDevice (cid : Cid) (owdTarget queueingDelayTarget : ℕ) : MeasurementManager δ :=
  { s with
    deviceList := s.deviceList ++ [{
      cid, owdTargetMs := owdTarget, queueingDelayTargetMs := queueingDelayTarget
      lastIntervalOwdDiff := A.one }] }

def withDevice (cid : Cid) (f : MeasureDevice δ → MeasureDevice δ) : MeasurementManager δ :=
  { s with
    deviceList := s.deviceList.zipIdx.map fun d =>
      if s.deviceList.findIdx (fun d => d.cid = cid) = d.2 then f d.1 else d.1 }

def dataMeasurementSample (owdMs lsn : ℕ) (cid : Cid) : MeasurementManager δ :=
  s.withDevice cid fun d => (d.updateLastPacketOwd owdMs true).updateLsn lsn

def updateRtt (rtt owd : ℕ) (cid : Cid) : MeasurementManager δ :=
  s.withDevice cid fun d => d.updateRtt rtt owd

def updateOwdFromProbe (owdMs : ℕ) (cid : Cid) : MeasurementManager δ :=
  match s.kind with
  | .measurement => s.withDevice cid fun d => d.updateLastPacketOwd owdMs false
  | .qos => s

def updateOwdFromAck (owdMs : ℕ) (cid : Cid) : MeasurementManager δ :=
  match s.kind with
  | .measurement => s.withDevice cid fun d => d.updateLastPacketOwd owdMs false
  | .qos => s.withDevice cid fun d => d.updateLastAckOwd owdMs

def maxRttMs : List (MeasureDevice δ) → ℕ → Except MeasureFault ℕ
  | [], maxRtt => .ok maxRtt
  | d :: devices, maxRtt => do
      let rtt ← d.getRtt
      if rtt = 0 then return 0 else maxRttMs devices (max maxRtt rtt)

def updateMinOwdCheck (now : ℕ) : MeasurementManager δ :=
  if s.lastMinRttUpdateTime = 0 ∨ now > s.lastMinRttUpdateTime + owdOffsetUpdateInterval then
    { s with
      deviceList := s.deviceList.map MeasureDevice.updateAllMinOwd
      lastMinRttUpdateTime := now }
  else s

def measureCycleStart (measureStartSn : ℕ) : MeasurementManager δ :=
  { s with
    measureIntervalIndex := 0
    measureStartSn
    measurementOn := true
    measureIntervalStarted := false
    delayMeasurement := 0
    deviceList := s.deviceList.map (MeasureDevice.initialMeasurementCycle A) }

def storeOffset (d : MeasureDevice δ) (byte : ℕ) : MeasureDevice δ :=
  { d with senderOwdAdjustment := decodeOffset byte }

def measureCycleStartByTsa (measureStartSn delay : ℕ) (owdVector : List ℕ) :
    Except MeasureFault (MeasurementManager δ) :=
  let s := { s.measureCycleStart A measureStartSn with delayMeasurement := delay }
  if owdVector = [] then .ok s
  else if owdVector.length < s.deviceList.length then .error .outOfRange
  else .ok { s with deviceList := List.zipWith storeOffset s.deviceList owdVector }

def moves (d : MeasureDevice δ) : Bool := 0 < d.senderOwdAdjustment ∧ d.lastMinOwd ≠ noOwd

def checkOffsets : Except MeasureFault Unit :=
  if 256 ≤ s.deviceList.length then .error .stillLooping
  else if ∃ d ∈ s.deviceList, d.Aborts then .error .negativeDelay
  else if s.previousOwdValue ≠ [] ∧
      ∃ d ∈ s.deviceList.drop s.previousOwdValue.length, moves d then .error .outOfRange
  else .ok ()

def measureIntervalStart (t : ℕ) : Except MeasureFault (MeasurementManager δ) := do
  s.checkOffsets
  let deviceList := s.deviceList.map MeasureDevice.startInterval
  let rtt ← maxRttMs deviceList 0
  return { s with
    deviceList
    previousOwdValue :=
      Gma.MeasurementManager.adjustPrevious (s.deviceList.map (·.toMeasureDevice))
        s.previousOwdValue
    measureIntervalIndex := (s.measureIntervalIndex + 1) % 256
    measureIntervalStarted := true
    measureIntervalStartTime := t
    splittingBurstRequirementEst := 0
    measureIntervalThresh :=
      max minIntervalDuration (min maxIntervalDuration (milliSeconds rtt)) }

def measureIntervalStartCheck (t sn expectedSn : ℕ) :
    Except MeasureFault (MeasurementManager δ) :=
  if s.kind = .qos ∨ sn < expectedSn then .ok s
  else
    let s := { s with lastIntervalStartSn := sn }
    if snDiff sn s.measureStartSn > 0 ∧ ¬ s.measureIntervalStarted ∧
        s.delayMeasurementEvent = none then
      if s.delayMeasurement = 0 then s.measureIntervalStart t
      else .ok { s with
        delayMeasurementEvent := some (t + milliSeconds s.delayMeasurement)
        delayMeasurement := 0 }
    else .ok s

def delayedStart : Except MeasureFault (MeasurementManager δ) :=
  match s.delayMeasurementEvent with
  | none => .error .notScheduled
  | some t => { s with delayMeasurementEvent := none }.measureIntervalStart t

end Cycle

section IntervalEnd
variable (s : MeasurementManager δ)

def getTrafficSplittingDecision (devices : List (MeasureDevice δ)) (record : RxMeasurement δ) :
    MeasurementManager δ × SplittingDecision :=
  let calls := s.calls ++ [⟨devices, s.algorithm, s.splittingBurst, record⟩]
  ({ s with calls, splittingBurst := (answer calls).splittingBurst }, (answer calls).decision)

def maxDiff (devices : List (MeasureDevice δ)) : δ :=
  devices.foldl (fun m d => if A.lt m d.lastIntervalOwdDiff then d.lastIntervalOwdDiff else m)
    A.zero

def endMeasurement : Bool :=
  s.measureIntervalIndex ≥ 2 ∧ A.converged (maxDiff A s.deviceList) ∨
    s.measureIntervalIndex ≥ s.maxMeasureInterval

def rxMeasurement (received : List Bool) : RxMeasurement δ where
  links := s.deviceList.length % 256
  delayThisInterval := received
  splittingBurstRequirementEst := s.splittingBurstRequirementEst
  cidList := s.deviceList.map (·.cid)
  delayList := s.deviceList.map fun d => A.ofNat (d.reportedDelay s.senderSideOwdAdjustment)
  minOwdLongTerm := s.deviceList.map fun d => A.ofNat d.lastMinOwd
  lossRateList := s.deviceList.map (MeasureDevice.lossRate A)
  delayViolationPktNumList :=
    s.deviceList.map (·.numOfDelayViolationDataPacketsPerInterval)
  totalPktNumList := s.deviceList.map (·.numOfDataPacketsPerInterval)

def owdMax (devices : List (MeasureDevice δ)) : ℕ :=
  devices.foldl (fun m d => if d.lastMinOwd ≠ noOwd ∧ m < d.lastMinOwd then d.lastMinOwd else m) 0

def feedbackMinOwd (decision : SplittingDecision) :
    Except MeasureFault (MeasurementManager δ × SplittingDecision) :=
  let minima := s.deviceList.map (·.lastMinOwd)
  if ¬ (s.splittingBurst > 1 ∧ s.senderSideOwdAdjustment) then .ok (s, decision)
  else if s.previousOwdValue ≠ [] ∧ s.deviceList.length ≠ s.previousOwdValue.length then
    .error .sizeMismatch
  else if s.previousOwdValue ≠ [] ∧ minima = s.previousOwdValue then .ok (s, decision)
  else if owdMax s.deviceList > 0 then
    .ok ({ s with
        previousOwdValue := minima
        deviceList := s.deviceList.map MeasureDevice.resetMinOwd },
      { decision with
        update := true
        minOwdLongTerm := decision.minOwdLongTerm ++
          s.deviceList.map fun d => d.feedback (owdMax s.deviceList) })
  else .ok (s, decision)

def sendOrRestart (decision : SplittingDecision) : MeasurementManager δ :=
  if decision.update then { s with tsus := s.tsus ++ [decision] }
  else s.measureCycleStart A s.lastIntervalStartSn

def endCycle (now : ℕ) : Except MeasureFault (MeasurementManager δ) := do
  let measured := s.deviceList
  let received := measured.map fun d => decide (d.lastIntervalOwd ≠ noOwd)
  let s := { s with
    measurementOn := false
    deviceList := s.deviceList.map MeasureDevice.lastKnown }
  let s := s.updateMinOwdCheck now
  let (s, decision) := s.getTrafficSplittingDecision answer measured (s.rxMeasurement A received)
  let (s, decision) ← s.feedbackMinOwd decision
  return s.sendOrRestart A decision

def measureIntervalEnd (t : ℕ) : Except MeasureFault (MeasurementManager δ) :=
  if 256 ≤ s.deviceList.length then .error .stillLooping
  else do
    let deviceList ← s.deviceList.mapM (MeasureDevice.closeInterval A)
    let s := { s with deviceList, measureIntervalStarted := false }
    if s.endMeasurement A then s.endCycle A answer t else s.measureIntervalStart t

def totalPackets : ℕ := (s.deviceList.map (·.numOfDataPacketsPerInterval)).sum

def longEnough (t : ℕ) : Bool := t ≥ s.measureIntervalStartTime + s.measureIntervalThresh

def estimateBurst (t : ℕ) : MeasurementManager δ :=
  if s.splittingBurstRequirementEst = 0 ∧ s.longEnough t then
    { s with splittingBurstRequirementEst := s.totalPackets }
  else s

def intervalEndCheck (t : ℕ) : Except MeasureFault (MeasurementManager δ) :=
  if ¬ s.measureIntervalStarted then .ok s
  else if 256 ≤ s.deviceList.length then .error .stillLooping
  else if s.splittingBurst = 0 then .error .noBurst
  else if t > s.measureIntervalStartTime + maxIntervalDuration ∨
      s.totalPackets > 2 * s.splittingBurst ∧ s.longEnough t then
    (s.estimateBurst t).measureIntervalEnd A answer t
  else .ok (s.estimateBurst t)

end IntervalEnd
end MeasurementManager
end NetGymSim.Gma.Measure

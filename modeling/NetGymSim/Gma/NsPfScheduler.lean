import NetGymSim.Lib.ExceptFold
import NetGymSim.Lib.OrderedMap
import NetGymSim.Lib.Word

/-!
# The state of the network-slicing PF scheduler

What `DoSchedDlTriggerReq` reads and writes. The maps it iterates over are lists in
the order of their keys, the others are functions. The tables of the AMC module,
the answers of the frequency-reuse algorithm and the double arithmetic of the
metric are parameters, so that nothing depends on how doubles are rounded.
-/

namespace NetGymSim.Gma
open NetGymSim.Lib

/-- Why a call does not return: `NS_FATAL_ERROR` with its text and the RNTI it names, an index or
an iterator out of range, a division by zero, a loop that is never left. -/
inductive Fault
  | fatalError (text : String) (rnti : ℕ)
  | outOfRange
  | divisionByZero
  | endless
deriving DecidableEq

def vecAt {α : Type} (l : List α) (i : ℕ) : Except Fault α :=
  match l[i]? with
  | some a => .ok a
  | none => .error .outOfRange

def vecSet {α : Type} (l : List α) (i : ℕ) (a : α) : Except Fault (List α) :=
  if i < l.length then .ok (l.set i a) else .error .outOfRange

/-- The entry of a map, or the fatal error of a look-up that has to succeed. -/
def orFatal {α : Type} (entry : Option α) (text : String) (rnti : ℕ) : Except Fault α :=
  match entry with
  | some a => .ok a
  | none => .error (.fatalError text rnti)

theorem vecAt_ok {α : Type} {l : List α} {i : ℕ} {a : α} (h : vecAt l i = .ok a) :
    l[i]? = some a := by
  unfold vecAt at h
  cases hi : l[i]? with
  | none =>
    rw [hi] at h
    cases h
  | some b =>
    rw [hi] at h
    cases h
    rfl

theorem vecSet_ok {α : Type} {l l' : List α} {i : ℕ} {a : α}
    (h : vecSet l i a = .ok l') : i < l.length ∧ l' = l.set i a := by
  unfold vecSet at h
  by_cases hi : i < l.length
  · rw [if_pos hi] at h
    cases h
    exact ⟨hi, rfl⟩
  · rw [if_neg hi] at h
    cases h

theorem orFatal_ok {α : Type} {entry : Option α} {text : String} {rnti : ℕ} {a : α}
    (h : orFatal entry text rnti = .ok a) : entry = some a := by
  unfold orFatal at h
  cases entry with
  | none => cases h
  | some b =>
    cases h
    rfl

inductive HarqStatus
  | ack
  | nack
  | dtx
deriving DecidableEq

structure DlInfo where
  rnti : ℕ
  harqProcessId : ℕ
  harqStatus : List HarqStatus
deriving DecidableEq

structure RlcPdu where
  logicalChannelIdentity : ℕ
  size : ℕ
deriving DecidableEq

structure DlDci where
  rnti : ℕ
  rbBitmap : BitVec 32
  resAlloc : ℕ
  mcs : List ℕ
  tbsSize : List ℕ
  ndi : List ℕ
  rv : List ℕ
  tpc : ℕ
  harqProcess : ℕ
deriving DecidableEq

structure BuildData where
  rnti : ℕ
  dci : DlDci
  rlcPduList : List (List RlcPdu)
deriving DecidableEq

structure SliceInfo where
  dedicatedRbg : ℕ
  prioritizedRbg : ℕ
  sharedRbg : ℕ
  minRbg : ℕ
  maxRbg : ℕ
deriving DecidableEq

inductive QosBearerType
  | nonGbr
  | gbr
  | dgbr
  | notValid
deriving DecidableEq

structure RlcBufferReq where
  rlcTransmissionQueueSize : ℕ
  rlcRetransmissionQueueSize : ℕ
  rlcStatusPduSize : ℕ
deriving DecidableEq

structure FlowPerf (R : Type) where
  totalBytesTransmitted : ℕ
  lastTtiBytesTrasmitted : ℕ
  lastTtiSlicedBytesTrasmitted : ℕ
  lastAveragedThroughput : R
  lastAveragedSlicedThroughput : R
  sliceId : ℕ

structure Ffr where
  availableDlRbg : List Bool
  isDlRbgAvailableForUe : ℕ → ℕ → Bool
  getTpc : ℕ → ℕ

/-- The AMC tables and the arithmetic on doubles: the rate of a transport block, the metric of a
user for an RBG of its slice and for another one, the bytes that were scheduled, the averages after
a TTI. -/
structure Radio (R : Type) extends Ffr where
  getMcsFromCqi : ℕ → ℕ
  getDlTbSizeFromMcs : ℕ → ℕ → ℕ
  zero : R
  one : R
  addRate : R → ℕ → R
  slicedRcqi : R → R → R
  sharedRcqi : R → R → R → R
  gt : R → R → Bool
  addScheduled : R → R → R
  toUint32 : R → ℕ
  ltBytes : R → ℕ → Bool
  average : R → ℕ → R

structure NsPfScheduler (R : Type) where
  harqOn : Bool
  dlBandwidth : ℕ
  flowStatsDl : List (ℕ × FlowPerf R)
  rlcBufferReq : List ((ℕ × ℕ) × RlcBufferReq)
  sliceInfoMap : List (ℕ × SliceInfo)
  ueLogicalChannelsConfigList : ℕ × ℕ → Option QosBearerType
  a30CqiRxed : ℕ → Option (List (List ℕ))
  a30CqiTimers : ℕ → Option ℕ
  uesTxMode : ℕ → Option ℕ
  dlHarqCurrentProcessId : ℕ → Option ℕ
  dlHarqProcessesStatus : ℕ → Option (List ℕ)
  dlHarqProcessesTimer : List (ℕ × List ℕ)
  dlHarqProcessesDciBuffer : ℕ → Option (List DlDci)
  dlHarqProcessesRlcPduListBuffer : ℕ → Option (List (List (List RlcPdu)))
  dlInfoListBuffered : List DlInfo
  scheduledBytesPerLc : ℕ × ℕ → Option R
  sliceBearerTypeMap : List (ℕ × QosBearerType)

/-- `GetRbgSize`; a bandwidth of 110 RBs or more has no RBG size. -/
def getRbgSize (dlbandwidth : ℕ) : Option ℕ :=
  if dlbandwidth < 10 then some 1
  else if dlbandwidth < 26 then some 2
  else if dlbandwidth < 63 then some 3
  else if dlbandwidth < 110 then some 4
  else none

def txMode2LayerNum (txMode : ℕ) : ℕ :=
  if txMode = 0 ∨ txMode = 1 ∨ txMode = 5 ∨ txMode = 6 then 1
  else if txMode = 2 ∨ txMode = 3 ∨ txMode = 4 then 2
  else 0

def RlcBufferReq.bytes (req : RlcBufferReq) : ℕ :=
  add32 (add32 req.rlcTransmissionQueueSize req.rlcRetransmissionQueueSize) req.rlcStatusPduSize

def RlcBufferReq.nonempty (req : RlcBufferReq) : Bool :=
  0 < req.rlcTransmissionQueueSize || 0 < req.rlcRetransmissionQueueSize ||
    0 < req.rlcStatusPduSize

/-- What `UpdateDlRlcBufferInfo` takes off for a PDU; the sizes are subtracted as `uint32_t`. -/
def RlcBufferReq.sent (req : RlcBufferReq) (lcid size : ℕ) : RlcBufferReq :=
  let rlcOverhead := if lcid = 1 then 4 else 2
  let payload := sub32 size rlcOverhead
  if 0 < req.rlcStatusPduSize ∧ req.rlcStatusPduSize ≤ size then
    { req with rlcStatusPduSize := 0 }
  else if 0 < req.rlcRetransmissionQueueSize ∧ req.rlcRetransmissionQueueSize ≤ size then
    { req with rlcRetransmissionQueueSize := 0 }
  else if 0 < req.rlcTransmissionQueueSize then
    if req.rlcTransmissionQueueSize ≤ payload then { req with rlcTransmissionQueueSize := 0 }
    else { req with rlcTransmissionQueueSize := sub32 req.rlcTransmissionQueueSize payload }
  else req

namespace NsPfScheduler
variable {R : Type}

/-- `RefreshDlCqiMaps` for the subband reports, the only ones that are used here. -/
def refreshDlCqiMaps (s : NsPfScheduler R) : NsPfScheduler R :=
  { s with
    a30CqiRxed := fun rnti => if s.a30CqiTimers rnti = some 0 then none else s.a30CqiRxed rnti
    a30CqiTimers := fun rnti =>
      match s.a30CqiTimers rnti with
      | some (timer + 1) => some timer
      | _ => none }

def refreshTimers (s : NsPfScheduler R) (rnti : ℕ) (timers : List ℕ) :
    Except Fault (List ℕ × NsPfScheduler R) :=
  (List.range 8).foldlM (fun (timers, s) i => do
    let timer ← vecAt timers i
    if timer = 11 then
      let status ← orFatal (s.dlHarqProcessesStatus rnti)
        "No Process Id Status found for this RNTI " rnti
      let status ← vecSet status i 0
      pure (timers.set i 0, { s with
        dlHarqProcessesStatus := Function.update s.dlHarqProcessesStatus rnti (some status) })
    else pure (timers.set i ((timer + 1) % 256), s)) (timers, s)

def refreshHarqProcesses (s : NsPfScheduler R) : Except Fault (NsPfScheduler R) := do
  let (entries, s) ← s.dlHarqProcessesTimer.foldlM (fun (entries, s) (rnti, timers) => do
    let (timers, s) ← refreshTimers s rnti timers
    pure (entries ++ [(rnti, timers)], s)) ([], s)
  pure { s with dlHarqProcessesTimer := entries }

/-- The search of a free HARQ process, which starts after the current one and ends there. -/
def nextProcess (status : List ℕ) (current : ℕ) : ℕ → ℕ → Except Fault ℕ
  | 0, _ => .error .endless
  | fuel + 1, i => do
      let i := (i + 1) % 8
      let st ← vecAt status i
      if st ≠ 0 ∧ i ≠ current then nextProcess status current fuel i else pure i

def harqProcessAvailability (s : NsPfScheduler R) (rnti : ℕ) : Except Fault Bool := do
  let current ← orFatal (s.dlHarqCurrentProcessId rnti) "No Process Id found for this RNTI " rnti
  let status ← orFatal (s.dlHarqProcessesStatus rnti)
    "No Process Id Statusfound for this RNTI " rnti
  let i ← nextProcess status current 8 current
  let st ← vecAt status i
  pure (st = 0)

def updateHarqProcessId (s : NsPfScheduler R) (rnti : ℕ) :
    Except Fault (ℕ × NsPfScheduler R) :=
  if s.harqOn then do
    let current ← orFatal (s.dlHarqCurrentProcessId rnti)
      "No Process Id found for this RNTI " rnti
    let status ← orFatal (s.dlHarqProcessesStatus rnti)
      "No Process Id Statusfound for this RNTI " rnti
    let i ← nextProcess status current 8 current
    let st ← vecAt status i
    if st = 0 then
      pure (i, { s with
        dlHarqCurrentProcessId := Function.update s.dlHarqCurrentProcessId rnti (some i)
        dlHarqProcessesStatus :=
          Function.update s.dlHarqProcessesStatus rnti (some (status.set i 1)) })
    else .error (.fatalError "No HARQ process available for RNTI " rnti)
  else pure (0, s)

/-- `RefreshSlicePriority`: the slices with bearers of each type that still have bytes to send. The
entries its look-ups add to other maps are those that a missing entry stands for. -/
def refreshSlicePriority (radio : Radio R) (s : NsPfScheduler R) :
    Except Fault (NsPfScheduler R) := do
  let bearers ← s.rlcBufferReq.foldlM (fun bearers (flowId, req) =>
    let scheduled := (s.scheduledBytesPerLc flowId).getD radio.zero
    if 0 < req.bytes ∧ radio.ltBytes scheduled req.bytes then do
      let flow ← orFatal (OrderedMap.find s.flowStatsDl flowId.1) "cannot find this rinti:" flowId.1
      let bearer := (s.ueLogicalChannelsConfigList flowId).getD .notValid
      pure (bearers ++ [(flow.sliceId, bearer)])
    else pure bearers) []
  pure { s with sliceBearerTypeMap := bearers }

/-- Users without a GBR bearer wait while their slice has one. -/
def priorityAwareLcActivePerFlow (s : NsPfScheduler R) (rnti : ℕ) : Except Fault ℕ := do
  let flow ← orFatal (OrderedMap.find s.flowStatsDl rnti) "cannot find this rinti:" rnti
  let active := (s.rlcBufferReq.takeWhile fun entry => entry.1.1 ≤ rnti).filter fun entry =>
    entry.1.1 = rnti && entry.2.nonempty
  let gbrFlag := active.any fun entry => s.ueLogicalChannelsConfigList entry.1 = some .gbr
  pure (if gbrFlag then active.length
    else if (flow.sliceId, .gbr) ∈ s.sliceBearerTypeMap then 0 else active.length)

def updateDlRlcBufferInfo (s : NsPfScheduler R) (rnti lcid size : ℕ) : NsPfScheduler R :=
  { s with rlcBufferReq := OrderedMap.modify s.rlcBufferReq (rnti, lcid) (·.sent lcid size) }

end NsPfScheduler
end NetGymSim.Gma

import Mathlib.Algebra.Order.Ring.Nat
import NetGymSim.Gma.NsPfScheduler
import NetGymSim.Gma.NsPfHarq

/-!
# Allocation of the free RBGs

Two runs over the RBGs that HARQ left. The first gives dedicated and prioritized RBGs
to users of the slice they are marked for, the second gives all RBGs but the dedicated
ones to users whose slice is below its maximum. In each run an RBG goes to the logical
channel with the greatest metric. RBGs are marked from the other end of the band.
-/

namespace NetGymSim.Gma
open NetGymSim.Lib

inductive RbgType
  | dedicated
  | prioritized
  | shared
deriving DecidableEq

/-- `UINT32_MAX` stands for no slice. -/
def noSlice : ℕ := 4294967295

def scanSlices (slices : List (ℕ × SliceInfo)) (size : SliceInfo → ℕ) (first rbgId : ℤ)
    (sliceId : ℕ) : ℤ × ℕ :=
  slices.foldl (fun (total, sliceId) (id, info) =>
    let start := int32 (first + total)
    let total := int32 (total + size info)
    (total, if start ≤ rbgId ∧ rbgId < int32 (first + total) then id else sliceId)) (0, sliceId)

def getRbgSliceInfo (slices : List (ℕ × SliceInfo)) (rbgId : ℤ) : RbgType × ℕ :=
  let (totalDedicated, sliceId) := scanSlices slices SliceInfo.dedicatedRbg 0 rbgId noSlice
  if rbgId < totalDedicated then (.dedicated, sliceId)
  else
    let (totalPrioritized, sliceId) :=
      scanSlices slices SliceInfo.prioritizedRbg totalDedicated rbgId sliceId
    if rbgId < int32 (totalDedicated + totalPrioritized) then (.prioritized, sliceId)
    else (.shared, sliceId)

structure Allocation (R : Type) where
  sched : NsPfScheduler R
  rbgMap : List Bool
  allocationMap : List (ℕ × List ℕ)
  sliceAllocationMap : List (ℕ × List ℕ)
  sliceRbgUsageMap : ℕ → ℕ

structure Pick (R : Type) where
  sched : NsPfScheduler R
  rcqiMax : R
  itMax : Option (ℕ × FlowPerf R)
  achievableRateMax : R
  flowIdMax : ℕ × ℕ

variable {R : Type}

/-- The number of RBGs the slice of a user may have in the second run. -/
def NsPfScheduler.maxRbgs (s : NsPfScheduler R) (sliceId : ℕ) : ℕ :=
  match OrderedMap.find s.sliceInfoMap sliceId with
  | some info => info.maxRbg
  | none => 18446744073709551615

def sliceAdmits (run : ℕ) (info : RbgType × ℕ) (sliceId usedRbgs maxRbgs : ℕ) : Bool :=
  if run = 0 then info.2 = sliceId
  else info.1 ≠ .dedicated && usedRbgs < maxRbgs

def NsPfScheduler.sbCqi (s : NsPfScheduler R) (rnti i nLayer : ℕ) : Except Fault (List ℕ) :=
  match s.a30CqiRxed rnti with
  | none => pure (List.replicate nLayer 1)
  | some higherLayerSelected => vecAt higherLayerSelected i

def achievableRate (radio : Radio R) (rbgSize nLayer : ℕ) (sbCqi : List ℕ) : R :=
  (List.range nLayer).foldl (fun rate k =>
    let mcs := match sbCqi[k]? with
      | some cqi => radio.getMcsFromCqi cqi
      | none => 0
    radio.addRate rate (radio.getDlTbSizeFromMcs mcs rbgSize / 8)) radio.zero

/-- A channel of the user with bytes that are not scheduled yet. -/
def NsPfScheduler.unscheduled (radio : Radio R) (s : NsPfScheduler R) (rnti : ℕ)
    (entry : (ℕ × ℕ) × RlcBufferReq) : Bool :=
  let scheduledBytes := match s.scheduledBytesPerLc entry.1 with
    | some bytes => radio.toUint32 bytes
    | none => 0
  entry.1.1 = rnti && scheduledBytes < entry.2.bytes

def considerChannel (radio : Radio R) (rnti : ℕ) (flow : FlowPerf R) (rate rcqi : R)
    (pick : Pick R) (entry : (ℕ × ℕ) × RlcBufferReq) : Pick R :=
  if pick.sched.unscheduled radio rnti entry && radio.gt rcqi pick.rcqiMax then
    { pick with
      rcqiMax := rcqi, itMax := some (rnti, flow), achievableRateMax := rate
      flowIdMax := entry.1 }
  else pick

def rcqi (radio : Radio R) (own : Bool) (flow : FlowPerf R) (rate : R) : R :=
  if own then radio.slicedRcqi rate flow.lastAveragedSlicedThroughput
  else radio.sharedRcqi rate flow.lastAveragedThroughput flow.lastAveragedSlicedThroughput

/-- The tests for a user after those on its slice: the frequency reuse lets it have the RBG, it has
no retransmission in this TTI and a free HARQ process, it is in range. Gives the CQIs. -/
def NsPfScheduler.inRange (radio : Radio R) (s : NsPfScheduler R) (rntiAllocated : List ℕ)
    (i rnti : ℕ) : Except Fault (Option (ℕ × List ℕ)) :=
  if radio.isDlRbgAvailableForUe i rnti then do
    let available ← s.harqProcessAvailability rnti
    if rnti ∈ rntiAllocated ∨ available = false then pure none
    else do
      let txMode ← orFatal (s.uesTxMode rnti) "No Transmission Mode info on user " rnti
      let nLayer := txMode2LayerNum txMode
      let sbCqi ← s.sbCqi rnti i nLayer
      let cqi1 ← vecAt sbCqi 0
      let cqi2 := (sbCqi[1]?).getD 0
      pure (if 0 < cqi1 ∨ 0 < cqi2 then some (nLayer, sbCqi) else none)
  else pure none

def considerUser (radio : Radio R) (rbgSize : ℕ) (rntiAllocated : List ℕ)
    (usage : ℕ → ℕ) (run i : ℕ) (info : RbgType × ℕ) (pick : Pick R)
    (user : ℕ × FlowPerf R) : Except Fault (Pick R) :=
  let (rnti, flow) := user
  if sliceAdmits run info flow.sliceId (usage flow.sliceId) (pick.sched.maxRbgs flow.sliceId)
  then do
    let reached ← pick.sched.inRange radio rntiAllocated i rnti
    match reached with
    | none => pure pick
    | some (nLayer, sbCqi) => do
        let s ← pick.sched.refreshSlicePriority radio
        let lcActives ← s.priorityAwareLcActivePerFlow rnti
        let pick := { pick with sched := s }
        let rate := achievableRate radio rbgSize nLayer sbCqi
        pure (if 0 < lcActives then
            s.rlcBufferReq.foldl
              (considerChannel radio rnti flow rate (rcqi radio (info.2 = flow.sliceId) flow rate))
              pick
          else pick)
  else pure pick

def Allocation.grant (radio : Radio R) (a : Allocation R) (run i rnti : ℕ)
    (flow : FlowPerf R) (pick : Pick R) : Except Fault (Allocation R) := do
  let scheduled := (pick.sched.scheduledBytesPerLc pick.flowIdMax).getD radio.zero
  let s := { pick.sched with
    scheduledBytesPerLc := Function.update pick.sched.scheduledBytesPerLc pick.flowIdMax
      (some (radio.addScheduled scheduled pick.achievableRateMax)) }
  let s ← s.refreshSlicePriority radio
  pure {
    sched := s
    rbgMap := a.rbgMap.set i true
    allocationMap := OrderedMap.push (· < ·) rnti i a.allocationMap
    sliceAllocationMap :=
      if run = 0 then OrderedMap.push (· < ·) rnti i a.sliceAllocationMap else a.sliceAllocationMap
    sliceRbgUsageMap := Function.update a.sliceRbgUsageMap flow.sliceId
      (add32 (a.sliceRbgUsageMap flow.sliceId) 1) }

def allocateRbg (radio : Radio R) (rbgNum rbgSize : ℕ) (rntiAllocated : List ℕ) (run : ℕ)
    (a : Allocation R) (i : ℕ) : Except Fault (Allocation R) := do
  let taken ← vecAt a.rbgMap i
  if taken then pure a
  else do
    let info := getRbgSliceInfo a.sched.sliceInfoMap (rbgNum - 1 - i)
    let pick ← a.sched.flowStatsDl.foldlM
      (considerUser radio rbgSize rntiAllocated a.sliceRbgUsageMap run i info)
      ⟨a.sched, radio.zero, none, radio.zero, (0, 0)⟩
    match pick.itMax with
    | none => pure { a with sched := pick.sched }
    | some (rnti, flow) => a.grant radio run i rnti flow pick

def allocationRun (radio : Radio R) (rbgNum rbgSize : ℕ) (rntiAllocated : List ℕ) (run : ℕ)
    (a : Allocation R) : Except Fault (Allocation R) :=
  (List.range rbgNum).foldlM (allocateRbg radio rbgNum rbgSize rntiAllocated run) a

def allocate (radio : Radio R) (rbgNum rbgSize : ℕ) (rntiAllocated : List ℕ)
    (s : NsPfScheduler R) (rbgMap : List Bool) : Except Fault (Allocation R) := do
  let first ← allocationRun radio rbgNum rbgSize rntiAllocated 0
    ⟨{ s with scheduledBytesPerLc := fun _ => none }, rbgMap, [], [], fun _ => 0⟩
  allocationRun radio rbgNum rbgSize rntiAllocated 1 first

end NetGymSim.Gma

/-!
## DL trigger of the network-slicing PF scheduler

`DoSchedDlTriggerReq` for the downlink: HARQ, the allocation, one DCI for each user with
RBGs, and the averages of the users. The random access responses, the uplink processes
and the counters of the used RBs have no part in it.
-/

namespace NetGymSim.Gma
open NetGymSim.Lib
variable {R : Type}

def worstCqi (reported : Option (List (List ℕ))) (nLayer : ℕ) (rbgs : List ℕ) :
    Except Fault (List ℕ) :=
  let lowest : List ℕ → Except Fault (List ℕ) := fun worst =>
    (List.range nLayer).foldlM (fun worst j => vecSet worst j 1) worst
  match reported with
  | none => lowest [15, 15]
  | some higherLayerSelected =>
      rbgs.foldlM (fun worst rbg =>
        match higherLayerSelected[rbg]? with
        | none => lowest worst
        | some sbCqi => (List.range nLayer).foldlM (fun worst j =>
            match sbCqi[j]? with
            | none => vecSet worst j 1
            | some cqi => do
                let w ← vecAt worst j
                if cqi < w then vecSet worst j cqi else pure worst) worst) [15, 15]

def sliceRgbPerRnti (s : NsPfScheduler R) (sliceId rgbPerRnti granted : ℕ) : ℕ :=
  match OrderedMap.find s.sliceInfoMap sliceId with
  | some info => min rgbPerRnti (info.minRbg % 65536)
  | none => granted

def buildPdus (s : NsPfScheduler R) (rnti lcid harqProcess lcActives nLayer : ℕ)
    (tbsSize : List ℕ) : Except Fault (NsPfScheduler R × List RlcPdu) :=
  (List.range nLayer).foldlM (fun (s, pdus) j => do
    let tbs ← vecAt tbsSize j
    let pdu : RlcPdu := ⟨lcid, tbs / lcActives⟩
    let s := s.updateDlRlcBufferInfo rnti lcid pdu.size
    if s.harqOn then do
      let rlc ← orFatal (s.dlHarqProcessesRlcPduListBuffer rnti)
        "Unable to find RlcPdcList in HARQ buffer for RNTI " rnti
      let layer ← vecAt rlc j
      let kept ← vecAt layer harqProcess
      let rlc := rlc.set j (layer.set harqProcess (kept ++ [pdu]))
      pure ({ s with dlHarqProcessesRlcPduListBuffer :=
          Function.update s.dlHarqProcessesRlcPduListBuffer rnti (some rlc) }, pdus ++ [pdu])
    else pure (s, pdus ++ [pdu])) (s, [])

def NsPfScheduler.storeDci (s : NsPfScheduler R) (rnti : ℕ) (dci : DlDci) :
    Except Fault (NsPfScheduler R) :=
  if s.harqOn then do
    let dcis ← orFatal (s.dlHarqProcessesDciBuffer rnti)
      "Unable to find RNTI entry in DCI HARQ buffer for RNTI " rnti
    let dcis ← vecSet dcis dci.harqProcess dci
    let timers ← orFatal (OrderedMap.find s.dlHarqProcessesTimer rnti)
      "Unable to find HARQ timer for RNTI " rnti
    let timers ← vecSet timers dci.harqProcess 0
    pure { s with
      dlHarqProcessesDciBuffer := Function.update s.dlHarqProcessesDciBuffer rnti (some dcis)
      dlHarqProcessesTimer := OrderedMap.modify s.dlHarqProcessesTimer rnti fun _ => timers }
  else pure s

def buildData (radio : Radio R) (rbgSize : ℕ) (sliceAllocationMap : List (ℕ × List ℕ))
    (s : NsPfScheduler R) (rnti : ℕ) (rbgs : List ℕ) :
    Except Fault (NsPfScheduler R × BuildData) := do
  let (harqProcess, s) ← s.updateHarqProcessId rnti
  let lcActives ← s.priorityAwareLcActivePerFlow rnti
  let lcActives := if lcActives = 0 then 65535 else lcActives
  let txMode ← orFatal (s.uesTxMode rnti) "No Transmission Mode info on user " rnti
  let nLayer := txMode2LayerNum txMode
  let worst ← worstCqi (s.a30CqiRxed rnti) nLayer rbgs
  let flow ← orFatal (OrderedMap.find s.flowStatsDl rnti) " No Stats for this allocated UE" rnti
  let mcs := (worst.take nLayer).map radio.getMcsFromCqi
  let tbsSize := mcs.map fun m => radio.getDlTbSizeFromMcs m (rbgs.length * rbgSize) / 8
  let slicedTbs := match OrderedMap.find sliceAllocationMap rnti with
    | some granted => mcs.map fun m => radio.getDlTbSizeFromMcs m
        (sliceRgbPerRnti s flow.sliceId rbgs.length granted.length * rbgSize) / 8
    | none => []
  -- the channels with bytes at this point, each changed by its own PDUs only
  let channels := (s.rlcBufferReq.takeWhile fun entry => entry.1.1 ≤ rnti).filter fun entry =>
    entry.1.1 = rnti && entry.2.nonempty
  let (s, pdus) ← channels.foldlM (fun (s, lists) entry => do
    let (s, pdus) ← buildPdus s rnti entry.1.2 harqProcess lcActives nLayer tbsSize
    pure (s, lists ++ [pdus])) (s, [])
  let dci : DlDci := {
    rnti := rnti, rbBitmap := rbgMask rbgs, resAlloc := 0, mcs := mcs, tbsSize := tbsSize
    ndi := List.replicate nLayer 1, rv := List.replicate nLayer 0, tpc := radio.getTpc rnti
    harqProcess := harqProcess }
  let s ← s.storeDci rnti dci
  pure ({ s with
    flowStatsDl := OrderedMap.modify s.flowStatsDl rnti fun flow => { flow with
      lastTtiBytesTrasmitted := tbsSize.sum
      lastTtiSlicedBytesTrasmitted := slicedTbs.sum } }, ⟨rnti, dci, pdus⟩)

def buildDataList (radio : Radio R) (rbgSize : ℕ) (sliceAllocationMap : List (ℕ × List ℕ))
    (allocationMap : List (ℕ × List ℕ)) (s : NsPfScheduler R) :
    Except Fault (NsPfScheduler R × List BuildData) :=
  allocationMap.foldlM (fun (s, build) (rnti, rbgs) => do
    let (s, el) ← buildData radio rbgSize sliceAllocationMap s rnti rbgs
    pure (s, build ++ [el])) (s, [])

def NsPfScheduler.resetTtiStats (s : NsPfScheduler R) : NsPfScheduler R :=
  { s with flowStatsDl := s.flowStatsDl.map fun (rnti, flow) =>
      (rnti, { flow with lastTtiBytesTrasmitted := 0, lastTtiSlicedBytesTrasmitted := 0 }) }

def NsPfScheduler.updateStats (radio : Radio R) (s : NsPfScheduler R) : NsPfScheduler R :=
  { s with flowStatsDl := s.flowStatsDl.map fun (rnti, flow) =>
      (rnti, { flow with
        totalBytesTransmitted := flow.totalBytesTransmitted + flow.lastTtiBytesTrasmitted
        lastAveragedThroughput :=
          radio.average flow.lastAveragedThroughput flow.lastTtiBytesTrasmitted
        lastAveragedSlicedThroughput :=
          radio.average flow.lastAveragedSlicedThroughput flow.lastTtiSlicedBytesTrasmitted
        lastTtiBytesTrasmitted := 0
        lastTtiSlicedBytesTrasmitted := 0 }) }

def scheduleNewData (radio : Radio R) (rbgNum rbgSize : ℕ) (harq : HarqPass R) :
    Except Fault (NsPfScheduler R × List BuildData) := do
  let a ← allocate radio rbgNum rbgSize harq.rntiAllocated harq.sched harq.rbgMap
  let (s, build) ← buildDataList radio rbgSize a.sliceAllocationMap a.allocationMap
    a.sched.resetTtiStats
  pure (s.updateStats radio, build)

/-- `DoSchedDlTriggerReq`, with the build list that is handed to the MAC. -/
def doSchedDlTriggerReq (radio : Radio R) (s : NsPfScheduler R) (dlInfoList : List DlInfo) :
    Except Fault (NsPfScheduler R × List BuildData) := do
  let s := s.refreshDlCqiMaps
  -- no RBG size makes the number of RBGs negative, and the map cannot be resized
  match getRbgSize s.dlBandwidth with
  | none => .error .outOfRange
  | some rbgSize => do
      let rbgNum := s.dlBandwidth / rbgSize
      let harq ← processDlHarq radio rbgNum s dlInfoList
      if harq.rbgAllocatedNum = rbgNum then pure (harq.sched, harq.buildDataList)
      else do
        let (s, build) ← scheduleNewData radio rbgNum rbgSize harq
        pure (s, harq.buildDataList ++ build)

end NetGymSim.Gma

import NetGymSim.Gma.NsPfScheduler

/-!
# HARQ retransmissions in a TTI

The feedback is taken in the order it was stored and received. A retransmission keeps
its RBGs when they are free; else the RBGs after its last one are searched, and when
there are too few the feedback is stored for the next TTI. The element of the build
list is made in every case, also after the feedback was stored.
-/

namespace NetGymSim.Gma
open NetGymSim.Lib

def dciRbgs (bitmap : BitVec 32) : List ℕ := (List.range 32).filter fun j => bitmap.getLsbD j

def rbgMask (rbgs : List ℕ) : BitVec 32 := rbgs.foldl (fun mask r => mask + (1#32 <<< r)) 0#32

def reserve (rbgMap : List Bool) (rbgs : List ℕ) : List Bool :=
  rbgs.foldl (fun rbgMap r => rbgMap.set r true) rbgMap

def allFree (rbgMap : List Bool) : List ℕ → Except Fault Bool
  | [] => pure true
  | r :: rest => do
      let taken ← vecAt rbgMap r
      if taken then pure false else allFree rbgMap rest

/-- The search for `want` free RBGs, up to the RBG `startRbg`. An RBG is visited once in `rbgNum`
turns; when `startRbg` is none of them the loop may never be left. -/
def findRbgs (rbgNum startRbg want : ℕ) :
    ℕ → ℕ → List Bool → List ℕ → Except Fault (List Bool × List ℕ)
  | 0, rbgId, rbgMap, found =>
      if found.length < want ∧ startRbg ≠ rbgId then .error .endless else pure (rbgMap, found)
  | fuel + 1, rbgId, rbgMap, found =>
      if found.length < want ∧ startRbg ≠ rbgId then do
        let taken ← vecAt rbgMap rbgId
        let next := (rbgId + 1) % rbgNum
        if taken then
          findRbgs rbgNum startRbg want fuel next rbgMap found
        else
          findRbgs rbgNum startRbg want fuel next (rbgMap.set rbgId true) (found ++ [rbgId])
      else pure (rbgMap, found)

/-- Where a retransmission goes; `stored` says that its feedback is kept for the next TTI. -/
structure Placement where
  dci : DlDci
  rbgMap : List Bool
  rbgAllocatedNum : ℕ
  stored : Bool

def countUsage (flowKnown : Bool) (rbgs : List ℕ) (rnti : ℕ) : Except Fault Unit :=
  if rbgs ≠ [] ∧ !flowKnown then .error (.fatalError "cannot find this rinti:" rnti) else pure ()

def placeRetx (rbgNum : ℕ) (flowKnown : Bool) (dci : DlDci) (rnti : ℕ) (rbgMap : List Bool)
    (rbgAllocatedNum : ℕ) : Except Fault Placement := do
  let dciRbg := dciRbgs dci.rbBitmap
  let free ← allFree rbgMap dciRbg
  if free then
    countUsage flowKnown dciRbg rnti
    pure ⟨dci, reserve rbgMap dciRbg, rbgAllocatedNum + dciRbg.length, false⟩
  else if rbgNum = 0 then .error .divisionByZero
  else
    let startRbg := dciRbg.getLastD 0
    let (rbgMapCopy, found) ← findRbgs rbgNum startRbg dciRbg.length rbgNum
      ((startRbg + 1) % rbgNum) rbgMap []
    if found.length = dciRbg.length then
      countUsage flowKnown found rnti
      pure ⟨{ dci with rbBitmap := rbgMask found }, rbgMapCopy, rbgAllocatedNum + found.length,
        false⟩
    else pure ⟨dci, rbgMap, rbgAllocatedNum, true⟩

def retxFlags (info : DlInfo) : Except Fault (List Bool) :=
  if info.harqStatus.length = 1 then do
    let status ← vecAt info.harqStatus 0
    pure [status = .nack, false]
  else do
    let status0 ← vecAt info.harqStatus 0
    let status1 ← vecAt info.harqStatus 1
    pure [status0 = .nack, status1 = .nack]

def maxRv (rv : List ℕ) : Except Fault ℕ :=
  if rv.length = 1 then vecAt rv 0
  else do
    let rv0 ← vecAt rv 0
    let rv1 ← vecAt rv 1
    pure (max rv0 rv1)

/-- The DCI of a retransmission in layer `j`. The redundancy version counted up in the HARQ buffer
is overwritten with that of the DCI later on. -/
def retxLayer (retx : List Bool) (dci : DlDci) (j : ℕ) : Except Fault DlDci := do
  let again ← vecAt retx j
  if again then
    if dci.ndi.length ≤ j then
      pure { dci with
        ndi := dci.ndi ++ [0], rv := dci.rv ++ [0], mcs := dci.mcs ++ [0]
        tbsSize := dci.tbsSize ++ [0] }
    else do
      let ndi ← vecSet dci.ndi j 0
      let rv ← vecAt dci.rv j
      pure { dci with ndi := ndi, rv := dci.rv.set j ((rv + 1) % 256) }
  else do
    let ndi ← vecSet dci.ndi j 0
    let rv ← vecSet dci.rv j 0
    let mcs ← vecSet dci.mcs j 0
    let tbsSize ← vecSet dci.tbsSize j 0
    pure { dci with ndi := ndi, rv := rv, mcs := mcs, tbsSize := tbsSize }

/-- The PDU `k` of the process in each layer, of size 0 where it is not sent again. -/
def retxPdu (rlc : List (List (List RlcPdu))) (retx : List Bool) (dci : DlDci) (nLayers k : ℕ) :
    Except Fault (List RlcPdu) :=
  (List.range nLayers).foldlM (fun perLc j => do
    let again ← vecAt retx j
    if again ∧ dci.ndi.length ≤ j then pure perLc
    else do
      let layer ← vecAt rlc j
      let pdus ← vecAt layer dci.harqProcess
      let pdu ← vecAt pdus k
      pure (perLc ++ [if again then pdu else { pdu with size := 0 }])) []

def retxPdus (rlc : List (List (List RlcPdu))) (retx : List Bool) (dci : DlDci) (nLayers : ℕ) :
    Except Fault (List (List RlcPdu)) := do
  let layer ← vecAt rlc 0
  let pdus ← vecAt layer dci.harqProcess
  (List.range pdus.length).foldlM (fun lists k => do
    let perLc ← retxPdu rlc retx dci nLayers k
    pure (if perLc = [] then lists else lists ++ [perLc])) []

/-- The variables of the loop over the feedback. -/
structure HarqPass (R : Type) where
  sched : NsPfScheduler R
  rbgMap : List Bool
  rbgAllocatedNum : ℕ
  rntiAllocated : List ℕ
  dlInfoListUntxed : List DlInfo
  buildDataList : List BuildData

variable {R : Type}

def NsPfScheduler.releaseProcess (s : NsPfScheduler R) (rnti harqId : ℕ) (noStatus : Fault)
    (noPdus : String) : Except Fault (NsPfScheduler R) := do
  let status ← (match s.dlHarqProcessesStatus rnti with
    | some status => vecSet status harqId 0
    | none => .error noStatus)
  let rlc ← orFatal (s.dlHarqProcessesRlcPduListBuffer rnti) noPdus rnti
  let rlc ← rlc.mapM fun layer => vecSet layer harqId []
  pure { s with
    dlHarqProcessesStatus := Function.update s.dlHarqProcessesStatus rnti (some status)
    dlHarqProcessesRlcPduListBuffer :=
      Function.update s.dlHarqProcessesRlcPduListBuffer rnti (some rlc) }

def NsPfScheduler.storeRetx (s : NsPfScheduler R) (rnti harqId : ℕ) (dcis : List DlDci)
    (rv : List ℕ) : Except Fault (NsPfScheduler R) := do
  let stored ← vecAt dcis harqId
  let timers ← orFatal (OrderedMap.find s.dlHarqProcessesTimer rnti)
    "Unable to find HARQ timer for RNTI " rnti
  let timers ← vecSet timers harqId 0
  pure { s with
    dlHarqProcessesDciBuffer := Function.update s.dlHarqProcessesDciBuffer rnti
      (some (dcis.set harqId { stored with rv := rv }))
    dlHarqProcessesTimer := OrderedMap.modify s.dlHarqProcessesTimer rnti fun _ => timers }

def retransmit (rbgNum : ℕ) (p : HarqPass R) (info : DlInfo) (retx : List Bool)
    (dcis : List DlDci) (dci : DlDci) : Except Fault (HarqPass R) := do
  let nLayers := info.harqStatus.length
  let flowKnown := (OrderedMap.find p.sched.flowStatsDl info.rnti).isSome
  let place ← placeRetx rbgNum flowKnown dci info.rnti p.rbgMap p.rbgAllocatedNum
  -- the source goes on to build the element when the feedback was stored, too
  let rlc ← orFatal (p.sched.dlHarqProcessesRlcPduListBuffer info.rnti)
    "Unable to find RlcPdcList in HARQ buffer for RNTI " info.rnti
  let newDci ← (List.range nLayers).foldlM (retxLayer retx) place.dci
  let pdus ← retxPdus rlc retx newDci nLayers
  let s ← p.sched.storeRetx info.rnti info.harqProcessId dcis newDci.rv
  pure {
    sched := s
    rbgMap := place.rbgMap
    rbgAllocatedNum := place.rbgAllocatedNum
    rntiAllocated := info.rnti :: p.rntiAllocated
    dlInfoListUntxed :=
      if place.stored then p.dlInfoListUntxed ++ [info] else p.dlInfoListUntxed
    buildDataList := p.buildDataList ++ [⟨info.rnti, newDci, pdus⟩] }

def harqTurn (rbgNum : ℕ) (p : HarqPass R) (info : DlInfo) : Except Fault (HarqPass R) :=
  if info.rnti ∈ p.rntiAllocated then pure p
  else do
    let retx ← retxFlags info
    if retx.any id then do
      let dcis ← orFatal (p.sched.dlHarqProcessesDciBuffer info.rnti)
        "No info find in HARQ buffer for UE " info.rnti
      let dci ← vecAt dcis info.harqProcessId
      let rv ← maxRv dci.rv
      if rv = 3 then do
        let s ← p.sched.releaseProcess info.rnti info.harqProcessId .outOfRange
          "Unable to find RlcPdcList in HARQ buffer for RNTI "
        pure { p with sched := s }
      else retransmit rbgNum p info retx dcis dci
    else do
      let s ← p.sched.releaseProcess info.rnti info.harqProcessId
        (.fatalError "No info find in HARQ buffer for UE " info.rnti)
        "Unable to find RlcPdcList in HARQ buffer for RNTI "
      pure { p with sched := s }

def NsPfScheduler.feedback (s : NsPfScheduler R) (dlInfoList : List DlInfo) : List DlInfo :=
  if s.harqOn then s.dlInfoListBuffered ++ dlInfoList else []

def processDlHarq (radio : Radio R) (rbgNum : ℕ) (s : NsPfScheduler R)
    (dlInfoList : List DlInfo) : Except Fault (HarqPass R) := do
  let s ← s.refreshHarqProcesses
  let p ← (s.feedback dlInfoList).foldlM (harqTurn rbgNum)
    ⟨s, radio.availableDlRbg, radio.availableDlRbg.count true, [], [], []⟩
  pure { p with sched := { p.sched with dlInfoListBuffered := p.dlInfoListUntxed } }

end NetGymSim.Gma

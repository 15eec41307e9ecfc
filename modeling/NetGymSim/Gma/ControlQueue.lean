import NetGymSim.Gma.DelayEmulation
import NetGymSim.Gma.LinkBitmap
import NetGymSim.Lib.Machine

/-!
# The control queue of `GmaVirtualInterface`

Control messages that wait for an ACK, their retransmission and the messages received
from the peer. `m_linkParamsMap` is the sorted list of its keys. `expiries` holds the
arguments of the `RetxCtrlMsgExpires` events that are scheduled; nothing cancels them and
they fire in any order. What `GmaRxControl` and the measurement answer is part of an
event. A TSU that a transmission triggers, since the access network reports a new address,
is an event of its own. `ident`, `forwarded` and `log` only serve the statements: they tell
the messages apart and record what becomes of them.
-/

namespace NetGymSim.Gma
open NetGymSim.Lib

structure TexedCtrQueueItem where
  mxControlHeader : MxControlHeader
  /-- The CSN of every transmission with its time. -/
  csnToTxtimeMap : Std.TreeMap ℕ ℕ
  ident : ℕ
  forwarded : Bool

structure SplittingDecision where
  update : Bool := false
  reverse : Bool := false
  splitIndexList : List ℕ := []
  minOwdLongTerm : List ℕ := []
  queueingDelay : List ℕ := []
  deriving DecidableEq

/-- Answers to a step: of `LinkDownTsu`, and whether a QoS measurement could be started. -/
structure Answers where
  linkDownTsu : SplittingDecision := {}
  qosMeasurementStart : Bool := true
  deriving DecidableEq

inductive CtrlRecord
  | sent (ident : ℕ) (copies : List MxControlHeader)
  | acknowledged (ident : ℕ) (sendTime : ℕ)
  | givenUp (ident : ℕ) (header : MxControlHeader) (cid : Cid)
  | testFailed (ident : ℕ)
  deriving DecidableEq

structure LinkIds where
  list : List Cid
  sorted : list.Pairwise (· < ·)

theorem LinkIds.nil_sorted : ([] : List Cid).Pairwise (· < ·) := List.Pairwise.nil

theorem LinkIds.pair_sorted : ([0, 2] : List Cid).Pairwise (· < ·) := by decide

structure EndpointConfig where
  serverRoleEnabled : Bool := false
  clientRoleEnabled : Bool := false
  qosSteerEnabled : Bool := false
  txMode : Bool := true
  rxMode : Bool := true
  enableMarkCtrlLinkMap : Bool := false
  splittingBurst : ℕ := 1
  deriving DecidableEq

structure Endpoint where
  config : EndpointConfig
  linkMap : LinkMap
  linkParamsMap : LinkIds
  emulateDelay : Cid → ℕ := fun _ => 0
  mxCtrSeqNumber : ℕ := 0
  txedCtrQueue : Std.TreeMap ℕ TexedCtrQueueItem := ∅
  expiries : List ℕ := []
  maxTsuSeqNum : ℕ := 0
  maxTsaSn : ℕ := 0
  gmaTxSn : ℕ := 0
  now : ℕ := 0
  idents : ℕ := 0
  log : List CtrlRecord := []
  /-- ACKs and TSAs sent back, and TSAs handed to `MeasureCycleStartByTsa`. -/
  replies : List MxControlHeader := []
  handedOver : List MxControlHeader := []
  failedAsserts : List String := []

namespace Endpoint

def maxRetxAttempt : ℕ := 5

def timeStamp (s : Endpoint) : ℕ := s.now % 4294967296

section Sending

def linkStatusMark (s : Endpoint) : ℕ :=
  if s.config.enableMarkCtrlLinkMap then (s.linkMap.linkState.isLinkUp wifiCid).toNat else 1

def copies (s : Endpoint) (header : MxControlHeader) : List MxControlHeader :=
  match header.type with
  | .tsu => ((s.linkParamsMap.list.zip header.kVector).filter fun p => p.2 ≠ 0).map fun p =>
      { header with linkStatus := s.linkStatusMark, connectionId := p.1 }
  | .probe => [{ header with linkStatus := s.linkStatusMark }]
  | _ => [header]

def transmit (s : Endpoint) (ident : ℕ) (header : MxControlHeader) : Endpoint :=
  { s with log := s.log ++ [CtrlRecord.sent ident (s.copies header)] }

def sendCtrlMsg (s : Endpoint) (header : MxControlHeader) (forwarded : Bool) : Endpoint :=
  let csn := header.sequenceNumber
  let item : TexedCtrQueueItem :=
    ⟨header, (∅ : Std.TreeMap ℕ ℕ).insert csn s.now, s.idents, forwarded⟩
  { s.transmit s.idents header with
    txedCtrQueue := s.txedCtrQueue.insert csn item
    expiries := s.expiries ++ [csn]
    idents := s.idents + 1
    failedAsserts :=
      if s.txedCtrQueue.contains csn then
        s.failedAsserts ++ ["all mesasges, new or retx should have a unique sn"]
      else s.failedAsserts }

def takeNumber (s : Endpoint) : Endpoint :=
  { s with mxCtrSeqNumber := (s.mxCtrSeqNumber + 1) % 65536 }

def sendNew (s : Endpoint) (header : MxControlHeader) : Endpoint :=
  s.takeNumber.sendCtrlMsg (header.setSequenceNumber s.mxCtrSeqNumber) false

def sendAll (s : Endpoint) (headers : List MxControlHeader) : Endpoint := headers.foldl sendNew s

def probeHeader (s : Endpoint) (probeFlag : ℕ) (cid : Cid) : MxControlHeader :=
  { type := .probe, connectionId := cid, probeFlag, rCid := cid, timeStamp := s.timeStamp }

def qosTestingRequestHeader (s : Endpoint) (cid : Cid) (duration direction channelId : ℕ) :
    MxControlHeader :=
  { type := .qosTestingRequest, connectionId := cid, timeStamp := s.timeStamp, flowId := qosFlowId
    trafficDirection := direction, testDuration := duration, channelId }

def qosTestingStartNotifyHeader (s : Endpoint) (h : MxControlHeader) : MxControlHeader :=
  { type := .qosTestingStartNotify, connectionId := h.connectionId, timeStamp := s.timeStamp
    flowId := qosFlowId, trafficDirection := h.trafficDirection, testDuration := h.testDuration }

def qosViolationHeader (s : Endpoint) (direction : ℕ) : MxControlHeader :=
  { type := .qosViolation, connectionId := s.linkMap.linkState.defaultLinkCid
    timeStamp := s.timeStamp, flowId := qosFlowId, trafficDirection := direction }

def tsuHeader (s : Endpoint) (d : SplittingDecision) : MxControlHeader :=
  ({ type := .tsu, connectionId := 0, l := s.config.splittingBurst
     flowId := if s.config.qosSteerEnabled then qosFlowId else bestEffortFlowId
     reverseFlag := if s.config.qosSteerEnabled ∧ d.reverse then 1 else 0 } :
    MxControlHeader).setTsuKandMeasureVectors d.splitIndexList d.minOwdLongTerm d.queueingDelay

def periodicProbeMsg (s : Endpoint) (probeFlag : ℕ) : Endpoint :=
  s.sendAll (s.linkParamsMap.list.map (s.probeHeader probeFlag))

def tsuHeaders (s : Endpoint) (d : SplittingDecision) : List MxControlHeader :=
  (if s.config.serverRoleEnabled then
    List.replicate s.linkMap.linkState.cidToLastTestFailTime.card (s.qosViolationHeader 1)
  else []) ++ [s.tsuHeader d]

def sendTsu (s : Endpoint) (d : SplittingDecision) : Endpoint := s.sendAll (s.tsuHeaders d)

def rcvReverseTsu (s : Endpoint) (header : MxControlHeader) : Endpoint :=
  s.sendCtrlMsg { header with reverseFlag := 0 } true

end Sending

section Expiry

def exhausted (item : TexedCtrQueueItem) : Prop := maxRetxAttempt < item.csnToTxtimeMap.size

instance exhausted.decidable (item : TexedCtrQueueItem) : Decidable (exhausted item) :=
  inferInstanceAs (Decidable (_ < _))

def markGivenUp (s : Endpoint) (item : TexedCtrQueueItem) : Endpoint :=
  let header := item.mxControlHeader
  let cid := header.connectionId
  { s with linkMap := { s.linkMap with linkState := (s.linkMap.linkState.ctrlMsgDown cid).1 }
           log := s.log ++ [.givenUp item.ident header cid] }

def giveUpAsksTsu (s : Endpoint) (item : TexedCtrQueueItem) (a : Answers) : Prop :=
  (s.linkMap.linkState.ctrlMsgDown item.mxControlHeader.connectionId).2 ∧ a.linkDownTsu.update

instance giveUpAsksTsu.decidable (s : Endpoint) (item : TexedCtrQueueItem) (a : Answers) :
    Decidable (s.giveUpAsksTsu item a) :=
  inferInstanceAs (Decidable (_ ∧ _))

def giveUp (s : Endpoint) (csn : ℕ) (item : TexedCtrQueueItem) (a : Answers) : Endpoint :=
  let asks := s.giveUpAsksTsu item a
  let s := s.markGivenUp item
  let s := if asks then s.sendTsu a.linkDownTsu else s
  { s with txedCtrQueue := s.txedCtrQueue.erase csn }

def failTest (s : Endpoint) (csn : ℕ) (item : TexedCtrQueueItem) : Endpoint :=
  let linkState := s.linkMap.linkState
  { s with
    linkMap := { s.linkMap with linkState := { linkState with
      cidToLastTestFailTime :=
        insert item.mxControlHeader.connectionId linkState.cidToLastTestFailTime } }
    txedCtrQueue := s.txedCtrQueue.erase csn
    log := s.log ++ [CtrlRecord.testFailed item.ident] }

def renewItem (s : Endpoint) (item : TexedCtrQueueItem) : TexedCtrQueueItem :=
  let header := item.mxControlHeader.setSequenceNumber s.mxCtrSeqNumber
  { item with
    mxControlHeader :=
      if header.type = .probe then { header with timeStamp := s.timeStamp } else header
    csnToTxtimeMap := item.csnToTxtimeMap.insert s.mxCtrSeqNumber s.now }

def resend (s : Endpoint) (csn : ℕ) (item : TexedCtrQueueItem) : Endpoint :=
  let item := s.renewItem item
  let s := { s.takeNumber with txedCtrQueue := s.txedCtrQueue.insert csn item }
  let s := s.transmit item.ident item.mxControlHeader
  { s with expiries := s.expiries ++ [csn] }

def isQosTest (item : TexedCtrQueueItem) : Prop :=
  item.mxControlHeader.type = .qosTestingRequest ∨
    item.mxControlHeader.type = .qosTestingStartNotify

instance isQosTest.decidable (item : TexedCtrQueueItem) : Decidable (isQosTest item) :=
  inferInstanceAs (Decidable (_ ∨ _))

def retxCtrlMsgExpires (s : Endpoint) (csn : ℕ) (a : Answers) : Endpoint :=
  match s.txedCtrQueue[csn]? with
  | none => s
  | some item =>
    if exhausted item then s.giveUp csn item a
    else if isQosTest item then s.failTest csn item
    else s.resend csn item

end Expiry

section Receiving

def respondAck (s : Endpoint) (header : MxControlHeader) (cid : Cid) : Endpoint :=
  { s with replies := s.replies ++ [{ type := .ack, connectionId := cid
                                      sequenceNumber := header.sequenceNumber
                                      timeStamp := s.timeStamp }] }

def asksTsu (s : Endpoint) (header : MxControlHeader) (a : Answers) : Prop :=
  ((header.type = .probe ∨ header.type = .tsu) ∧ s.linkMap.ahead header ∧
    header.linkStatus = 0) ∧ (s.linkMap.linkState.linkBitMapDown wifiCid).2 ∧
    a.linkDownTsu.update

instance asksTsu.decidable (s : Endpoint) (header : MxControlHeader) (a : Answers) :
    Decidable (s.asksTsu header a) :=
  inferInstanceAs (Decidable (_ ∧ _ ∧ _))

def updateLinkMap (s : Endpoint) (header : MxControlHeader) : Endpoint :=
  { s with linkMap := s.linkMap.recv header }

def recvLinkMap (s : Endpoint) (header : MxControlHeader) (a : Answers) : Endpoint :=
  if s.asksTsu header a then (s.updateLinkMap header).sendTsu a.linkDownTsu
  else s.updateLinkMap header

/-- A TSU that `CsnDiff` takes for a new one. -/
def newTsu (s : Endpoint) (header : MxControlHeader) : Prop :=
  s.config.txMode ∧ 0 < csnDiff header.sequenceNumber s.maxTsuSeqNum

instance newTsu.decidable (s : Endpoint) (header : MxControlHeader) :
    Decidable (s.newTsu header) :=
  inferInstanceAs (Decidable (_ ∧ _))

def turnsRound (s : Endpoint) (header : MxControlHeader) : Prop :=
  s.newTsu header ∧ s.config.qosSteerEnabled ∧ s.config.serverRoleEnabled ∧
    header.reverseFlag = 1

instance turnsRound.decidable (s : Endpoint) (header : MxControlHeader) :
    Decidable (s.turnsRound header) :=
  inferInstanceAs (Decidable (_ ∧ _ ∧ _ ∧ _))

def drainDelay (offsets : List ℤ) (kVector : List ℕ) : ℕ :=
  let links := offsets.zip kVector
  if ∃ p ∈ links, 0 ≤ p.1 ∧ 0 < p.2 then
    links.foldl (fun m p => if p.1 < 0 ∧ 0 < p.2 then max m (-p.1).toNat else m) 0
  else 0

def tsaHeader (s : Endpoint) (header : MxControlHeader) (offsets : List ℤ) (maxDelay : ℕ) :
    MxControlHeader :=
  { type := .tsa, connectionId := header.connectionId, sequenceNumber := header.sequenceNumber
    timeStamp := s.timeStamp, flowId := header.flowId, startSn := s.gmaTxSn
    delay := maxDelay, owdVector := encodeOffsets offsets }

def acceptTsu (s : Endpoint) (header : MxControlHeader) : Endpoint :=
  let cidList := s.linkMap.linkState.cidList
  if s.newTsu header then
    let r := emulateDelays cidList header.owdVector s.emulateDelay
    { s with
      maxTsuSeqNum := header.sequenceNumber
      emulateDelay := r.1
      replies := s.replies ++ [s.tsaHeader header r.2 (drainDelay r.2 header.kVector)] }
  else
    { s with replies := s.replies ++ [s.tsaHeader header (cidList.map fun _ => 0) 0] }

def recvTsu (s : Endpoint) (header : MxControlHeader) : Endpoint :=
  if s.turnsRound header then (s.respondAck header header.connectionId).rcvReverseTsu header
  else s.acceptTsu header

def ackLookup (s : Endpoint) (csn : ℕ) : Option (ℕ × TexedCtrQueueItem × ℕ) :=
  match s.txedCtrQueue[csn]? with
  | some item => some (csn, item, (item.csnToTxtimeMap.toList.head?.map Prod.snd).getD 0)
  | none =>
    (s.txedCtrQueue.toList.find? fun e => e.2.csnToTxtimeMap.contains csn).map fun e =>
      (e.1, e.2, (e.2.csnToTxtimeMap[csn]?).getD 0)

def acknowledge (s : Endpoint) (key : ℕ) (item : TexedCtrQueueItem) (sendTime : ℕ) : Endpoint :=
  { s with txedCtrQueue := s.txedCtrQueue.erase key
           log := s.log ++ [.acknowledged item.ident sendTime] }

def recvAck (s : Endpoint) (header : MxControlHeader) : Endpoint :=
  match s.ackLookup header.sequenceNumber with
  | none => s
  | some (key, item, sendTime) =>
    let s := s.acknowledge key item sendTime
    let s := if header.type = .tsa ∧ s.config.rxMode ∧
          0 < csnDiff header.sequenceNumber s.maxTsaSn then
        { s with maxTsaSn := header.sequenceNumber, handedOver := s.handedOver ++ [header] }
      else s
    { s with linkMap := { s.linkMap with
        linkState := (s.linkMap.linkState.ctrlMsgUp header.connectionId).1 } }

def recvCtrlMsg (s : Endpoint) (header : MxControlHeader) (a : Answers) : Endpoint :=
  let s := s.recvLinkMap header a
  match header.type with
  | .probe => s.respondAck header header.rCid
  | .tsu => s.recvTsu header
  | .ack | .tsa => s.recvAck header
  | .qosTestingRequest =>
      let s := s.respondAck header header.connectionId
      s.sendNew (s.qosTestingStartNotifyHeader header)
  | .qosTestingStartNotify =>
      if a.qosMeasurementStart then s.respondAck header header.connectionId else s
  | .qosViolation => s.respondAck header header.connectionId

end Receiving

section Runs

/-- What happens to an endpoint. `testFailTimes` stands for the controls that keep
`m_cidToLastTestFailTime`. -/
inductive Event
  | wait (ms : ℕ)
  | sendData
  | probe (probeFlag : ℕ)
  | qosTestingRequest (cid : Cid) (duration direction channelId : ℕ)
  | qosViolation (direction : ℕ)
  | tsu (d : SplittingDecision)
  | expire (csn : ℕ) (a : Answers)
  | recv (header : MxControlHeader) (a : Answers)
  | linkDown (cause : DownCause) (cid : Cid)
  | linkUp (cause : DownCause) (cid : Cid)
  | testFailTimes (cids : Finset Cid)

/-- A TSU with a vector of another length aborts the program. -/
def enabled (s : Endpoint) : Event → Prop
  | .expire csn _ => csn ∈ s.expiries
  | .tsu d => d.update
  | .recv header _ => header.sequenceNumber < 65536 ∧
      (header.type = .tsu → s.linkMap.linkState.cidList.length = header.owdVector.length)
  | _ => True

instance enabled.decidable (s : Endpoint) : (e : Event) → Decidable (s.enabled e)
  | .expire csn _ => inferInstanceAs (Decidable (csn ∈ s.expiries))
  | .tsu d => inferInstanceAs (Decidable (d.update = true))
  | .recv header _ => inferInstanceAs (Decidable (header.sequenceNumber < 65536 ∧
      (header.type = .tsu → s.linkMap.linkState.cidList.length = header.owdVector.length)))
  | .wait _ | .sendData | .probe _ | .qosTestingRequest _ _ _ _ | .qosViolation _
  | .linkDown _ _ | .linkUp _ _ | .testFailTimes _ => inferInstanceAs (Decidable True)

def fire (s : Endpoint) (csn : ℕ) : Endpoint := { s with expiries := s.expiries.erase csn }

def setLinkState (s : Endpoint) (linkState : LinkState) : Endpoint :=
  { s with linkMap := { s.linkMap with linkState } }

def next (s : Endpoint) : Event → Endpoint
  | .wait ms => { s with now := s.now + ms }
  | .sendData => { s with gmaTxSn := (s.gmaTxSn + 1) % 16777216 }
  | .probe probeFlag => s.periodicProbeMsg probeFlag
  | .qosTestingRequest cid duration direction channelId =>
      s.sendNew (s.qosTestingRequestHeader cid duration direction channelId)
  | .qosViolation direction => s.sendNew (s.qosViolationHeader direction)
  | .tsu d => s.sendTsu d
  | .expire csn a => (s.fire csn).retxCtrlMsgExpires csn a
  | .recv header a => s.recvCtrlMsg header a
  | .linkDown cause cid => s.setLinkState (s.linkMap.linkState.markDown cause cid).1
  | .linkUp cause cid => s.setLinkState (s.linkMap.linkState.markUp cause cid).1
  | .testFailTimes cids =>
      s.setLinkState { s.linkMap.linkState with cidToLastTestFailTime := cids }

def machine : Machine Endpoint Event := ⟨enabled, next⟩

instance machine.decidable (s : Endpoint) (e : Event) : Decidable (machine.enabled s e) :=
  enabled.decidable s e

def start (config : EndpointConfig) (linkState : LinkState) (links : LinkIds) : Endpoint :=
  { config, linkMap := { linkState }, linkParamsMap := links }

end Runs
end Endpoint
end NetGymSim.Gma

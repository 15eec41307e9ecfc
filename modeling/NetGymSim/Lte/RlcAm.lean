import NetGymSim.Lte.RlcAmHeader
import NetGymSim.Lte.Reassembly
import NetGymSim.Lte.SequenceNumber10
import NetGymSim.Lib.Machine
import Mathlib.Logic.Function.Basic

/-!
# `LteRlcAm`

A packet is the list of its bytes. The buffers for transmitted PDUs are arrays over the
sequence numbers, the reception buffer is a map from them. Of a timer it matters whether it is
running; its expiry is an event. Assertions do not change the state; where an access would fail
the state is left as it is. The times that packets wait, which are only reported to the MAC, and
the retransmission counts, which are only logged, are left out.
-/

namespace NetGymSim.Lte
open NetGymSim.Lib

structure PduBuffer where
  byteSegments : List (List ℕ) := []
  pduComplete : Bool := false

/-- `PollPDU`, `PollByte`, `MaxTxBufferSize` and `TxOpportunityForRetxAlwaysBigEnough`. -/
structure RlcAmConfig where
  pollPdu : ℕ := 1
  pollByte : ℕ := 50
  maxTxBufferSize : ℕ := 10 * 1024
  txOpportunityForRetxAlwaysBigEnough : Bool := false

def amWindowSize : ℕ := 512

structure BufferStatus where
  txQueueSize : ℕ
  retxQueueSize : ℕ
  statusPduSize : ℕ
  deriving DecidableEq

structure LteRlcAm where
  config : RlcAmConfig
  txonBuffer : List TxPdu := []
  txonBufferSize : ℕ := 0
  retxBuffer : ℕ → Option (List ℕ) := fun _ => none
  retxBufferSize : ℕ := 0
  txedBuffer : ℕ → Option (List ℕ) := fun _ => none
  txedBufferSize : ℕ := 0
  statusPduRequested : Bool := false
  statusPduBufferSize : ℕ := 0
  vtA : SequenceNumber10 := .ofValue 0
  vtMs : SequenceNumber10 := .ofValue amWindowSize
  vtS : SequenceNumber10 := .ofValue 0
  pollSn : SequenceNumber10 := .ofValue 0
  vrR : SequenceNumber10 := .ofValue 0
  vrMr : SequenceNumber10 := .ofValue amWindowSize
  vrX : SequenceNumber10 := .ofValue 0
  vrMs : SequenceNumber10 := .ofValue 0
  vrH : SequenceNumber10 := .ofValue 0
  pduWithoutPoll : ℕ := 0
  byteWithoutPoll : ℕ := 0
  pollRetransmitTimer : Bool := false
  reorderingTimer : Bool := false
  statusProhibitTimer : Bool := false
  rbsTimer : Bool := false
  pollRetransmitTimerJustExpired : Bool := false
  rxonBuffer : ℕ → Option PduBuffer := fun _ => none
  reassembler : Reassembler := {}

namespace LteRlcAm

/-! ### Buffer status -/

/-- `DoReportBufferStatus`; nothing is sent when there is nothing to report. -/
def doReportBufferStatus (s : LteRlcAm) : Option BufferStatus :=
  let r : BufferStatus :=
    { txQueueSize := s.txonBufferSize
      retxQueueSize := s.retxBufferSize + s.txedBufferSize
      statusPduSize :=
        if s.statusPduRequested ∧ ¬ s.statusProhibitTimer then s.statusPduBufferSize else 0 }
  if r.txQueueSize ≠ 0 ∨ r.retxQueueSize ≠ 0 ∨ r.statusPduSize ≠ 0 then some r else none

def doTransmitPdcpPdu (s : LteRlcAm) (p : List ℕ) : LteRlcAm :=
  let s :=
    if s.txonBufferSize + p.length ≤ s.config.maxTxBufferSize ∨ s.config.maxTxBufferSize = 0 then
      { s with
        txonBuffer := s.txonBuffer ++ [⟨p, .fullSdu⟩]
        txonBufferSize := s.txonBufferSize + p.length }
    else s
  { s with rbsTimer := true }

/-! ### A STATUS PDU -/

def received (s : LteRlcAm) (sn : SequenceNumber10) : Bool :=
  match s.rxonBuffer sn.value with
  | none => false
  | some entry => entry.pduComplete

def collectNacks (s : LteRlcAm) (bytes : ℕ) :
    ℕ → SequenceNumber10 → LteRlcAmHeader → SequenceNumber10 × LteRlcAmHeader
  | 0, sn, header => (sn, header)
  | fuel + 1, sn, header =>
      if ¬ sn.lt s.vrMs then (sn, header)
      else if ¬ header.oneMoreNackWouldFitIn bytes then (sn, header)
      else collectNacks s bytes fuel sn.succ
        (if s.received sn then header else header.pushNack sn.value)

def findAckSn (s : LteRlcAm) : ℕ → SequenceNumber10 → SequenceNumber10
  | 0, sn => sn
  | fuel + 1, sn => if sn.lt s.vrMs ∧ s.received sn then findAckSn s fuel sn.succ else sn

/-- The header of the STATUS PDU for an opportunity of `bytes`. No loop goes round the circle of
the sequence numbers. -/
def statusHeader (s : LteRlcAm) (bytes : ℕ) : LteRlcAmHeader :=
  let header := ({} : LteRlcAmHeader).setControlPdu statusPdu
  let (sn, header) := s.collectNacks bytes 1024 s.vrR header
  header.setAckSn (s.findAckSn 1024 sn).value

def sendStatus (s : LteRlcAm) (bytes : ℕ) : LteRlcAm × List ℕ :=
  ({ s with
    statusPduRequested := false
    statusPduBufferSize := 0
    statusProhibitTimer := true }, (s.statusHeader bytes).serialize)

/-! ### Polling -/

def poll (s : LteRlcAm) : LteRlcAm :=
  { s with
    pollRetransmitTimerJustExpired := false
    pduWithoutPoll := 0
    byteWithoutPoll := 0
    pollSn := s.vtS.sub 1
    pollRetransmitTimer := true }

/-! ### A retransmission -/

def findRetx (s : LteRlcAm) : ℕ → SequenceNumber10 → Option (ℕ × List ℕ)
  | 0, _ => none
  | fuel + 1, sn =>
      if ¬ sn.lt s.vtS then none
      else match s.retxBuffer sn.value with
        | some pdu => some (sn.value, pdu)
        | none => findRetx s fuel sn.succ

def moveToTxed (s : LteRlcAm) (sn : ℕ) (pdu : List ℕ) : LteRlcAm :=
  { s with
    txedBuffer := Function.update s.txedBuffer sn (some pdu)
    txedBufferSize := s.txedBufferSize + pdu.length
    retxBufferSize := s.retxBufferSize - pdu.length
    retxBuffer := Function.update s.retxBuffer sn none }

def moveToRetx (s : LteRlcAm) (sn : ℕ) (pdu : List ℕ) : LteRlcAm :=
  { s with
    retxBuffer := Function.update s.retxBuffer sn (some pdu)
    retxBufferSize := s.retxBufferSize + pdu.length
    txedBufferSize := s.txedBufferSize - pdu.length
    txedBuffer := Function.update s.txedBuffer sn none }

def retransmit (s : LteRlcAm) (sn : ℕ) (pdu : List ℕ) : LteRlcAm × Option (List ℕ) :=
  match ({} : LteRlcAmHeader).deserialize pdu with
  | none => (s, none)
  | some (header, packet) =>
      if (s.txonBuffer = [] ∧ s.retxBufferSize = packet.length + header.getSerializedSize) ∨
          s.vtS.ge s.vtMs ∨ s.pollRetransmitTimerJustExpired then
        (s.poll.moveToTxed sn pdu, some ((header.setPollingBit 1).serialize ++ packet))
      else (s.moveToTxed sn pdu, some ((header.setPollingBit 0).serialize ++ packet))

/-! ### A new PDU -/

def takeDataField (s : LteRlcAm) (bytes : ℕ) (first : TxPdu) (behind : List TxPdu) :
    Filling LteRlcAmHeader :=
  fillDataField (({} : LteRlcAmHeader).setDataPdu) [] (s.txonBufferSize - first.pdu.length) first
    (bytes - 4) 1 behind

def newHeader (f : Filling LteRlcAmHeader) (vtS : SequenceNumber10) : LteRlcAmHeader :=
  ((((f.header.setSequenceNumber vtS.value).setResegmentationFlag wholePdu).setLastSegmentFlag
    1).setSegmentOffset 0).setFramingInfo (framingInfo f.dataField)

def store (s : LteRlcAm) (sn : ℕ) (pdu : List ℕ) : LteRlcAm :=
  { s with
    txedBufferSize := s.txedBufferSize + pdu.length
    txedBuffer := Function.update s.txedBuffer sn (some pdu) }

def buildPdu (s : LteRlcAm) (bytes : ℕ) (first : TxPdu) (behind : List TxPdu) :
    LteRlcAm × List ℕ :=
  let f := s.takeDataField bytes first behind
  let packet := dataOf f.dataField
  let sn := s.vtS.value
  let header := newHeader f s.vtS
  let s := { s with
    txonBuffer := f.txBuffer
    txonBufferSize := f.txBufferSize
    vtS := s.vtS.succ
    pduWithoutPoll := s.pduWithoutPoll + 1
    byteWithoutPoll := s.byteWithoutPoll + packet.length }
  if s.pduWithoutPoll ≥ s.config.pollPdu ∨ s.byteWithoutPoll ≥ s.config.pollByte ∨
      (s.txonBuffer = [] ∧ s.retxBufferSize = 0) ∨ s.vtS.ge s.vtMs ∨
        s.pollRetransmitTimerJustExpired then
    let pdu := (header.setPollingBit 1).serialize ++ packet
    (s.poll.store sn pdu, pdu)
  else
    let pdu := (header.setPollingBit 0).serialize ++ packet
    (s.store sn pdu, pdu)

def sendNew (s : LteRlcAm) (bytes : ℕ) : LteRlcAm × Option (List ℕ) :=
  match s.txonBuffer with
  | [] => (s, none)
  | first :: behind =>
      let r := s.buildPdu bytes first behind
      (r.1, some r.2)

/-! ### `DoNotifyTxOpportunity` -/

/-- The state afterwards and the PDU that is passed to the MAC. A search that finds no PDU for
retransmission ends in an assertion, behind which a new PDU would be built. -/
def doNotifyTxOpportunity (s : LteRlcAm) (bytes : ℕ) : LteRlcAm × Option (List ℕ) :=
  if bytes < 4 then (s, none)
  else if s.statusPduRequested ∧ ¬ s.statusProhibitTimer then
    if bytes < s.statusPduBufferSize then (s, none)
    else
      let r := s.sendStatus bytes
      (r.1, some r.2)
  else if s.retxBufferSize > 0 then
    match s.findRetx 1024 s.vtA with
    | some (sn, pdu) =>
        if pdu.length ≤ bytes ∨ s.config.txOpportunityForRetxAlwaysBigEnough then
          s.retransmit sn pdu
        else (s, none)
    | none => s.sendNew bytes
  else if s.txonBufferSize > 0 then
    if bytes < 7 then (s, none)
    else if s.vtS.value = s.vtMs.value then (s, none)
    else s.sendNew bytes
  else (s, none)

/-! ### Reception of data -/

def isInsideReceivingWindow (s : LteRlcAm) (seqNumber : SequenceNumber10) : Bool :=
  let vrR := s.vrR.setModulusBase s.vrR
  let vrMr := s.vrMr.setModulusBase s.vrR
  let seqNumber := seqNumber.setModulusBase s.vrR
  vrR.le seqNumber ∧ seqNumber.lt vrMr

/-- The bases that `IsInsideReceivingWindow` sets in the entity. -/
def setWindowBases (s : LteRlcAm) : LteRlcAm :=
  { s with vrR := s.vrR.setModulusBase s.vrR, vrMr := s.vrMr.setModulusBase s.vrR }

def reassembleAndDeliver (s : LteRlcAm) (packet : List ℕ) : LteRlcAm :=
  match ({} : LteRlcAmHeader).deserialize packet with
  | none => s
  | some (header, data) =>
      { s with
        reassembler := s.reassembler.reassemble false header.framingInfo header.sequenceNumber
          header.extensionBits header.lengthIndicators data }

def place (s : LteRlcAm) (seqNumber : SequenceNumber10) (packet : List ℕ) : LteRlcAm :=
  match s.rxonBuffer seqNumber.value with
  | some _ => s
  | none => { s with
      rxonBuffer := Function.update s.rxonBuffer seqNumber.value (some ⟨[packet], true⟩) }

def skipReceived (s : LteRlcAm) : ℕ → SequenceNumber10 → SequenceNumber10
  | 0, sn => sn
  | fuel + 1, sn => if s.received sn then skipReceived s fuel sn.succ else sn

/-- One turn of the loop that delivers the PDU with number `VR(R)`. -/
def deliverFront (s : LteRlcAm) (entry : PduBuffer) : LteRlcAm :=
  let s := s.reassembleAndDeliver (entry.byteSegments.headD [])
  let vrR := s.vrR.succ.setModulusBase s.vrR.succ
  { s with
    rxonBuffer := Function.update s.rxonBuffer s.vrR.value none
    vrR := vrR
    vrX := s.vrX.setModulusBase vrR
    vrMs := s.vrMs.setModulusBase vrR
    vrH := s.vrH.setModulusBase vrR }

def deliverInSequence : ℕ → LteRlcAm → LteRlcAm
  | 0, s => s
  | fuel + 1, s =>
      match s.rxonBuffer s.vrR.value with
      | none => s
      | some entry => if entry.pduComplete then deliverInSequence fuel (s.deliverFront entry) else s

def updateHighest (s : LteRlcAm) (seqNumber : SequenceNumber10) : LteRlcAm :=
  let s := if seqNumber.ge s.vrH then { s with vrH := seqNumber.add 1 } else s
  { s with vrMs := s.skipReceived 1024 s.vrMs }

def updateLowest (s : LteRlcAm) (seqNumber : SequenceNumber10) : LteRlcAm :=
  if seqNumber.value = s.vrR.value ∧ s.received seqNumber then
    let s := deliverInSequence 1024 s
    { s with vrMr := s.vrR.add amWindowSize }
  else s

def stopReordering (s : LteRlcAm) : LteRlcAm :=
  if s.reorderingTimer then
    if s.vrX.value = s.vrR.value ∨
        (¬ s.isInsideReceivingWindow s.vrX ∧ s.vrX.value ≠ s.vrMr.value) then
      { s with reorderingTimer := false }
    else s
  else s

def startReordering (s : LteRlcAm) : LteRlcAm :=
  if ¬ s.reorderingTimer then
    if s.vrH.gt s.vrR then { s with reorderingTimer := true, vrX := s.vrH } else s
  else s

def requestStatus (s : LteRlcAm) : LteRlcAm :=
  { s with statusPduRequested := true, statusPduBufferSize := 4 }

def receiveData (s : LteRlcAm) (header : LteRlcAmHeader) (packet : List ℕ) : LteRlcAm :=
  let seqNumber := (SequenceNumber10.ofValue header.sequenceNumber).setModulusBase s.vrR
  let s := if header.pollingBit = 1 then s.requestStatus else s
  let inside := s.isInsideReceivingWindow seqNumber
  let s := s.setWindowBases
  if ¬ inside then s
  else
    (((s.place seqNumber packet).updateHighest seqNumber).updateLowest
      seqNumber).stopReordering.startReordering

/-! ### Reception of a STATUS PDU -/

def nack (s : LteRlcAm) (sn : ℕ) : LteRlcAm :=
  match s.txedBuffer sn with
  | some pdu => s.moveToRetx sn pdu
  | none => s

def ack (s : LteRlcAm) (sn : ℕ) : LteRlcAm :=
  let s := match s.txedBuffer sn with
    | some pdu => { s with
        txedBufferSize := s.txedBufferSize - pdu.length
        txedBuffer := Function.update s.txedBuffer sn none }
    | none => s
  match s.retxBuffer sn with
  | some pdu => { s with
      retxBufferSize := s.retxBufferSize - pdu.length
      retxBuffer := Function.update s.retxBuffer sn none }
  | none => s

/-- `VT(A)` and `VT(MS)` move by one and all numbers get the new base. -/
def advanceVtA (s : LteRlcAm) : LteRlcAm :=
  let vtA := s.vtA.succ
  { s with
    vtA := vtA.setModulusBase vtA
    vtMs := (vtA.add amWindowSize).setModulusBase vtA
    vtS := s.vtS.setModulusBase vtA }

def handleStatus (header : LteRlcAmHeader) :
    ℕ → LteRlcAm → SequenceNumber10 → SequenceNumber10 → Bool → LteRlcAm
  | 0, s, _, _, _ => s
  | fuel + 1, s, sn, ackSn, incrementVtA =>
      if ¬ (sn.lt ackSn ∧ sn.lt s.vtS) then s
      else
        let s :=
          if s.pollRetransmitTimer ∧ sn.value = s.pollSn.value then
            { s with pollRetransmitTimer := false }
          else s
        let nacked := header.isNackPresent sn.value
        let s := if nacked then s.nack sn.value else s.ack sn.value
        if incrementVtA ∧ ¬ nacked then
          let s := s.advanceVtA
          handleStatus header fuel s (sn.setModulusBase s.vtA).succ (ackSn.setModulusBase s.vtA)
            true
        else handleStatus header fuel s sn.succ ackSn false

def receiveStatus (s : LteRlcAm) (header : LteRlcAmHeader) : LteRlcAm :=
  let s := { s with
    vtA := s.vtA.setModulusBase s.vtA
    vtS := s.vtS.setModulusBase s.vtA
    vtMs := s.vtMs.setModulusBase s.vtA }
  handleStatus header 1024 s s.vtA
    ((SequenceNumber10.ofValue header.ackSn).setModulusBase s.vtA) true

def doReceivePdu (s : LteRlcAm) (packet : List ℕ) : LteRlcAm :=
  match ({} : LteRlcAmHeader).deserialize packet with
  | none => s
  | some (header, _) =>
      if header.dataControlBit = dataPdu then s.receiveData header packet
      else s.receiveStatus header

/-! ### Timers -/

def expireReorderingTimer (s : LteRlcAm) : LteRlcAm :=
  let s := { s with reorderingTimer := false, vrMs := s.skipReceived 1024 s.vrX }
  let s := if s.vrH.gt s.vrMs then { s with reorderingTimer := true, vrX := s.vrH } else s
  { s with statusPduRequested := true }

def moveAllToRetx : ℕ → LteRlcAm → SequenceNumber10 → LteRlcAm
  | 0, s, _ => s
  | fuel + 1, s, sn =>
      if sn.lt s.vtS then moveAllToRetx fuel (s.nack sn.value) sn.succ else s

def expirePollRetransmitTimer (s : LteRlcAm) : LteRlcAm :=
  let s := { s with pollRetransmitTimer := false, pollRetransmitTimerJustExpired := true }
  if (s.txonBufferSize = 0 ∧ s.retxBufferSize = 0) ∨ s.vtS.value = s.vtMs.value then
    moveAllToRetx 1024 s s.vtA
  else s

def expireStatusProhibitTimer (s : LteRlcAm) : LteRlcAm := { s with statusProhibitTimer := false }

def expireRbsTimer (s : LteRlcAm) : LteRlcAm :=
  if s.txonBufferSize + s.txedBufferSize + s.retxBufferSize > 0 then s
  else { s with rbsTimer := false }

/-! ### Runs -/

inductive Event
  | transmitPdcpPdu (p : List ℕ)
  | notifyTxOpportunity (bytes : ℕ)
  | receivePdu (packet : List ℕ)
  | expireReorderingTimer
  | expirePollRetransmitTimer
  | expireStatusProhibitTimer
  | expireRbsTimer
  deriving DecidableEq

def next (s : LteRlcAm) : Event → LteRlcAm
  | .transmitPdcpPdu p => s.doTransmitPdcpPdu p
  | .notifyTxOpportunity bytes => (s.doNotifyTxOpportunity bytes).1
  | .receivePdu packet => s.doReceivePdu packet
  | .expireReorderingTimer => s.expireReorderingTimer
  | .expirePollRetransmitTimer => s.expirePollRetransmitTimer
  | .expireStatusProhibitTimer => s.expireStatusProhibitTimer
  | .expireRbsTimer => s.expireRbsTimer

/-- PDCP puts its header in front of what it sends, so that no SDU is empty. A timer only expires
while it runs. -/
def enabled (s : LteRlcAm) : Event → Prop
  | .transmitPdcpPdu p => p ≠ []
  | .notifyTxOpportunity _ => True
  | .receivePdu _ => True
  | .expireReorderingTimer => s.reorderingTimer
  | .expirePollRetransmitTimer => s.pollRetransmitTimer
  | .expireStatusProhibitTimer => s.statusProhibitTimer
  | .expireRbsTimer => s.rbsTimer

def machine : Machine LteRlcAm Event := ⟨enabled, next⟩

instance : (s : LteRlcAm) → (e : Event) → Decidable (machine.enabled s e)
  | _, .transmitPdcpPdu p => inferInstanceAs (Decidable (p ≠ []))
  | _, .notifyTxOpportunity _ => inferInstanceAs (Decidable True)
  | _, .receivePdu _ => inferInstanceAs (Decidable True)
  | s, .expireReorderingTimer => inferInstanceAs (Decidable (s.reorderingTimer = true))
  | s, .expirePollRetransmitTimer => inferInstanceAs (Decidable (s.pollRetransmitTimer = true))
  | s, .expireStatusProhibitTimer => inferInstanceAs (Decidable (s.statusProhibitTimer = true))
  | s, .expireRbsTimer => inferInstanceAs (Decidable (s.rbsTimer = true))

def initial (config : RlcAmConfig) : LteRlcAm := { config := config }

end LteRlcAm
end NetGymSim.Lte

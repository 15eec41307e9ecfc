import NetGymSim.Lte.RlcAm

/-!
# The sides of an RLC AM entity

The transmitting side, the receiving side and the request for a STATUS PDU share nothing: each
operation works on one of them, except that a data PDU may raise the request and that sending
the STATUS PDU reads the receiving side.
-/

namespace NetGymSim.Lte
open NetGymSim.Lib

structure TxSide where
  config : RlcAmConfig
  txonBuffer : List TxPdu
  txonBufferSize : ℕ
  retxBuffer : ℕ → Option (List ℕ)
  retxBufferSize : ℕ
  txedBuffer : ℕ → Option (List ℕ)
  txedBufferSize : ℕ
  vtA : SequenceNumber10
  vtMs : SequenceNumber10
  vtS : SequenceNumber10

structure RxSide where
  rxonBuffer : ℕ → Option PduBuffer
  vrR : SequenceNumber10
  vrMr : SequenceNumber10
  vrX : SequenceNumber10
  vrMs : SequenceNumber10
  vrH : SequenceNumber10
  reorderingTimer : Bool

structure StatusSide where
  statusPduRequested : Bool
  statusPduBufferSize : ℕ
  statusProhibitTimer : Bool

namespace LteRlcAm

def txSide (s : LteRlcAm) : TxSide :=
  { config := s.config
    txonBuffer := s.txonBuffer
    txonBufferSize := s.txonBufferSize
    retxBuffer := s.retxBuffer
    retxBufferSize := s.retxBufferSize
    txedBuffer := s.txedBuffer
    txedBufferSize := s.txedBufferSize
    vtA := s.vtA
    vtMs := s.vtMs
    vtS := s.vtS }

def rxSide (s : LteRlcAm) : RxSide :=
  { rxonBuffer := s.rxonBuffer
    vrR := s.vrR
    vrMr := s.vrMr
    vrX := s.vrX
    vrMs := s.vrMs
    vrH := s.vrH
    reorderingTimer := s.reorderingTimer }

def statusSide (s : LteRlcAm) : StatusSide :=
  { statusPduRequested := s.statusPduRequested
    statusPduBufferSize := s.statusPduBufferSize
    statusProhibitTimer := s.statusProhibitTimer }

variable (s : LteRlcAm)

/-! ### Receiving data -/

section Receiving
variable (seqNumber : SequenceNumber10) (packet : List ℕ)

theorem reassembleAndDeliver_sides :
    (s.reassembleAndDeliver packet).txSide = s.txSide ∧
      (s.reassembleAndDeliver packet).rxSide = s.rxSide ∧
      (s.reassembleAndDeliver packet).statusSide = s.statusSide := by
  unfold reassembleAndDeliver
  cases ({} : LteRlcAmHeader).deserialize packet <;> exact ⟨rfl, rfl, rfl⟩

theorem deliverFront_sides (entry : PduBuffer) :
    (s.deliverFront entry).txSide = s.txSide ∧
      (s.deliverFront entry).statusSide = s.statusSide := by
  obtain ⟨htx, _, hstatus⟩ := s.reassembleAndDeliver_sides (entry.byteSegments.headD [])
  exact ⟨htx, hstatus⟩

theorem deliverInSequence_sides (fuel : ℕ) :
    (deliverInSequence fuel s).txSide = s.txSide ∧
      (deliverInSequence fuel s).statusSide = s.statusSide := by
  induction fuel generalizing s with
  | zero => exact ⟨rfl, rfl⟩
  | succ fuel ih =>
    unfold deliverInSequence
    cases s.rxonBuffer s.vrR.value with
    | none => exact ⟨rfl, rfl⟩
    | some entry =>
      dsimp only
      split_ifs with hcomplete
      · have hfront := s.deliverFront_sides entry
        have hrest := ih (s.deliverFront entry)
        exact ⟨hrest.1.trans hfront.1, hrest.2.trans hfront.2⟩
      · exact ⟨rfl, rfl⟩

theorem place_sides :
    (s.place seqNumber packet).txSide = s.txSide ∧
      (s.place seqNumber packet).statusSide = s.statusSide := by
  unfold place
  cases s.rxonBuffer seqNumber.value <;> exact ⟨rfl, rfl⟩

theorem updateHighest_sides :
    (s.updateHighest seqNumber).txSide = s.txSide ∧
      (s.updateHighest seqNumber).statusSide = s.statusSide := by
  unfold updateHighest
  split_ifs <;> exact ⟨rfl, rfl⟩

theorem updateLowest_sides :
    (s.updateLowest seqNumber).txSide = s.txSide ∧
      (s.updateLowest seqNumber).statusSide = s.statusSide := by
  unfold updateLowest
  split_ifs with h
  · have hdeliver := s.deliverInSequence_sides 1024
    generalize deliverInSequence 1024 s = t at hdeliver ⊢
    unfold txSide statusSide at hdeliver ⊢
    dsimp only
    exact hdeliver
  · exact ⟨rfl, rfl⟩

theorem stopReordering_sides :
    s.stopReordering.txSide = s.txSide ∧ s.stopReordering.statusSide = s.statusSide := by
  unfold stopReordering
  split_ifs <;> exact ⟨rfl, rfl⟩

theorem startReordering_sides :
    s.startReordering.txSide = s.txSide ∧ s.startReordering.statusSide = s.statusSide := by
  unfold startReordering
  split_ifs <;> exact ⟨rfl, rfl⟩

def acceptData : LteRlcAm :=
  (((s.place seqNumber packet).updateHighest seqNumber).updateLowest
    seqNumber).stopReordering.startReordering

theorem acceptData_sides :
    (s.acceptData seqNumber packet).txSide = s.txSide ∧
      (s.acceptData seqNumber packet).statusSide = s.statusSide := by
  have hplace := s.place_sides seqNumber packet
  have hhigh := (s.place seqNumber packet).updateHighest_sides seqNumber
  have hlow := ((s.place seqNumber packet).updateHighest seqNumber).updateLowest_sides seqNumber
  have hstop := (((s.place seqNumber packet).updateHighest seqNumber).updateLowest
    seqNumber).stopReordering_sides
  have hstart := (((s.place seqNumber packet).updateHighest seqNumber).updateLowest
    seqNumber).stopReordering.startReordering_sides
  unfold acceptData
  rw [hstart.1, hstart.2, hstop.1, hstop.2, hlow.1, hlow.2, hhigh.1, hhigh.2]
  exact hplace

def polled (header : LteRlcAmHeader) : LteRlcAm :=
  if header.pollingBit = 1 then s.requestStatus else s

theorem polled_sides (header : LteRlcAmHeader) :
    (s.polled header).txSide = s.txSide ∧ (s.polled header).rxSide = s.rxSide := by
  unfold polled
  split_ifs <;> exact ⟨rfl, rfl⟩

def sequenceNumberOf (header : LteRlcAmHeader) : SequenceNumber10 :=
  (SequenceNumber10.ofValue header.sequenceNumber).setModulusBase s.vrR

theorem receiveData_eq (header : LteRlcAmHeader) :
    s.receiveData header packet =
      if (s.polled header).isInsideReceivingWindow (s.sequenceNumberOf header) then
        (s.polled header).setWindowBases.acceptData (s.sequenceNumberOf header) packet
      else (s.polled header).setWindowBases := by
  unfold receiveData
  dsimp only
  exact ite_not ..

theorem receiveData_sides (header : LteRlcAmHeader) :
    (s.receiveData header packet).txSide = s.txSide ∧
      (s.receiveData header packet).statusSide = (s.polled header).statusSide := by
  have hpoll := s.polled_sides header
  rw [receiveData_eq]
  split_ifs with hinside
  · have haccept := (s.polled header).setWindowBases.acceptData_sides (s.sequenceNumberOf header)
      packet
    exact ⟨haccept.1.trans hpoll.1, haccept.2⟩
  · exact ⟨hpoll.1, rfl⟩

theorem expireReorderingTimer_txSide : s.expireReorderingTimer.txSide = s.txSide := by
  unfold expireReorderingTimer
  dsimp only
  split_ifs <;> rfl

end Receiving

/-! ### Transmitting -/

section Transmitting
variable (sn : ℕ) (pdu : List ℕ) (bytes : ℕ)

theorem nack_sides :
    (s.nack sn).rxSide = s.rxSide ∧ (s.nack sn).statusSide = s.statusSide := by
  unfold nack
  cases s.txedBuffer sn <;> exact ⟨rfl, rfl⟩

theorem ack_sides : (s.ack sn).rxSide = s.rxSide ∧ (s.ack sn).statusSide = s.statusSide := by
  unfold ack
  cases s.txedBuffer sn <;> dsimp only <;> cases s.retxBuffer sn <;> exact ⟨rfl, rfl⟩

theorem moveAllToRetx_sides (fuel : ℕ) (first : SequenceNumber10) :
    (moveAllToRetx fuel s first).rxSide = s.rxSide ∧
      (moveAllToRetx fuel s first).statusSide = s.statusSide := by
  induction fuel generalizing s first with
  | zero => exact ⟨rfl, rfl⟩
  | succ fuel ih =>
    unfold moveAllToRetx
    split_ifs with h
    · have hnack := s.nack_sides first.value
      have hrest := ih (s.nack first.value) first.succ
      exact ⟨hrest.1.trans hnack.1, hrest.2.trans hnack.2⟩
    · exact ⟨rfl, rfl⟩

theorem expirePollRetransmitTimer_sides :
    s.expirePollRetransmitTimer.rxSide = s.rxSide ∧
      s.expirePollRetransmitTimer.statusSide = s.statusSide := by
  unfold expirePollRetransmitTimer
  dsimp only
  split_ifs with h
  · generalize 1024 = fuel
    exact moveAllToRetx_sides _ fuel _
  · exact ⟨rfl, rfl⟩

theorem doTransmitPdcpPdu_sides :
    (s.doTransmitPdcpPdu pdu).rxSide = s.rxSide ∧
      (s.doTransmitPdcpPdu pdu).statusSide = s.statusSide := by
  unfold doTransmitPdcpPdu
  split_ifs <;> exact ⟨rfl, rfl⟩

theorem poll_sides :
    s.poll.txSide = s.txSide ∧ s.poll.rxSide = s.rxSide ∧ s.poll.statusSide = s.statusSide := by
  simp only [poll, txSide, rxSide, statusSide, and_self]

theorem moveToTxed_sides :
    (s.moveToTxed sn pdu).rxSide = s.rxSide ∧
      (s.moveToTxed sn pdu).statusSide = s.statusSide := by
  simp only [moveToTxed, rxSide, statusSide, and_self]

theorem retransmit_sides :
    (s.retransmit sn pdu).1.rxSide = s.rxSide ∧
      (s.retransmit sn pdu).1.statusSide = s.statusSide := by
  unfold retransmit
  cases ({} : LteRlcAmHeader).deserialize pdu with
  | none => exact ⟨rfl, rfl⟩
  | some read =>
    dsimp only
    split_ifs with h
    · have hmove := s.poll.moveToTxed_sides sn pdu
      rw [hmove.1, hmove.2]
      exact s.poll_sides.2
    · exact s.moveToTxed_sides sn pdu

theorem buildPdu_txSide (first : TxPdu) (behind : List TxPdu) :
    (s.buildPdu bytes first behind).1.txSide =
      { s.txSide with
        txonBuffer := (s.takeDataField bytes first behind).txBuffer
        txonBufferSize := (s.takeDataField bytes first behind).txBufferSize
        vtS := s.vtS.succ
        txedBuffer :=
          Function.update s.txedBuffer s.vtS.value (some (s.buildPdu bytes first behind).2)
        txedBufferSize := s.txedBufferSize + (s.buildPdu bytes first behind).2.length } := by
  unfold buildPdu
  dsimp only
  split_ifs with hpoll <;> rfl

theorem sendNew_sides :
    (s.sendNew bytes).1.rxSide = s.rxSide ∧ (s.sendNew bytes).1.statusSide = s.statusSide := by
  unfold sendNew
  cases s.txonBuffer with
  | nil => exact ⟨rfl, rfl⟩
  | cons first behind =>
    unfold buildPdu
    dsimp only
    split_ifs <;> exact ⟨rfl, rfl⟩

theorem sendStatus_sides :
    (s.sendStatus bytes).1.txSide = s.txSide ∧ (s.sendStatus bytes).1.rxSide = s.rxSide :=
  ⟨rfl, rfl⟩

def statusDue : Prop :=
  (s.statusPduRequested ∧ ¬ s.statusProhibitTimer) ∧ 4 ≤ bytes ∧ s.statusPduBufferSize ≤ bytes

instance : Decidable (s.statusDue bytes) := inferInstanceAs (Decidable (_ ∧ _))

theorem doNotifyTxOpportunity_of_due (h : s.statusDue bytes) :
    s.doNotifyTxOpportunity bytes =
      ((s.sendStatus bytes).1, some (s.statusHeader bytes).serialize) := by
  obtain ⟨hrequested, hfour, hsize⟩ := h
  unfold doNotifyTxOpportunity
  rw [if_neg (by omega), if_pos hrequested, if_neg (by omega)]
  rfl

/-- Where no STATUS PDU is sent, the opportunity is left unused, a PDU is sent again or a new one
is built. -/
inductive Sends : LteRlcAm × Option (List ℕ) → Prop
  | nothing : Sends (s, none)
  | again (sn : ℕ) (pdu : List ℕ) (hretx : s.retxBufferSize > 0)
      (hfind : s.findRetx 1024 s.vtA = some (sn, pdu))
      (hfits : pdu.length ≤ bytes ∨ s.config.txOpportunityForRetxAlwaysBigEnough) :
      Sends (s.retransmit sn pdu)
  | lost (hretx : s.retxBufferSize > 0) (hfind : s.findRetx 1024 s.vtA = none) :
      Sends (s.sendNew bytes)
  | fresh (hbytes : 7 ≤ bytes) (hretx : s.retxBufferSize = 0) (htxon : s.txonBufferSize > 0)
      (hroom : s.vtS.value ≠ s.vtMs.value) : Sends (s.sendNew bytes)

theorem doNotifyTxOpportunity_sends (h : ¬ s.statusDue bytes) :
    s.Sends bytes (s.doNotifyTxOpportunity bytes) := by
  unfold doNotifyTxOpportunity
  by_cases hfour : bytes < 4
  · rw [if_pos hfour]
    exact .nothing
  rw [if_neg hfour]
  by_cases hrequested : s.statusPduRequested ∧ ¬ s.statusProhibitTimer
  · have hsmall : bytes < s.statusPduBufferSize := by
      by_contra hsize
      exact h ⟨hrequested, by omega, by omega⟩
    rw [if_pos hrequested, if_pos hsmall]
    exact .nothing
  rw [if_neg hrequested]
  by_cases hretx : s.retxBufferSize > 0
  · rw [if_pos hretx]
    cases hfind : s.findRetx 1024 s.vtA with
    | none => exact .lost hretx hfind
    | some found =>
      dsimp only
      split_ifs with hfits
      · exact .again found.1 found.2 hretx hfind hfits
      · exact .nothing
  rw [if_neg hretx]
  split_ifs with htxon hseven hfull
  · exact .nothing
  · exact .nothing
  · exact .fresh (by omega) (by omega) htxon hfull
  · exact .nothing

theorem Sends.sides {r : LteRlcAm × Option (List ℕ)} (h : s.Sends bytes r) :
    r.1.rxSide = s.rxSide ∧ r.1.statusSide = s.statusSide := by
  cases h with
  | nothing => exact ⟨rfl, rfl⟩
  | again sn pdu hretx hfind hfits => exact s.retransmit_sides sn pdu
  | lost hretx hfind => exact s.sendNew_sides bytes
  | fresh hbytes hretx htxon hroom => exact s.sendNew_sides bytes

theorem doNotifyTxOpportunity_rxSide : (s.doNotifyTxOpportunity bytes).1.rxSide = s.rxSide := by
  by_cases h : s.statusDue bytes
  · rw [s.doNotifyTxOpportunity_of_due bytes h]
    exact (s.sendStatus_sides bytes).2
  · exact ((s.doNotifyTxOpportunity_sends bytes h).sides).1

end Transmitting

section Status
variable (header : LteRlcAmHeader)

theorem advanceVtA_sides :
    s.advanceVtA.rxSide = s.rxSide ∧ s.advanceVtA.statusSide = s.statusSide := by
  simp only [advanceVtA, rxSide, statusSide, and_self]

def stopPoll (sn : ℕ) : LteRlcAm :=
  if s.pollRetransmitTimer ∧ sn = s.pollSn.value then { s with pollRetransmitTimer := false } else s

theorem stopPoll_sides (sn : ℕ) :
    (s.stopPoll sn).txSide = s.txSide ∧ (s.stopPoll sn).rxSide = s.rxSide ∧
      (s.stopPoll sn).statusSide = s.statusSide := by
  unfold stopPoll
  split_ifs <;> exact ⟨rfl, rfl, rfl⟩

def report (sn : ℕ) : LteRlcAm :=
  if header.isNackPresent sn then (s.stopPoll sn).nack sn else (s.stopPoll sn).ack sn

theorem report_sides (sn : ℕ) :
    (s.report header sn).rxSide = s.rxSide ∧ (s.report header sn).statusSide = s.statusSide := by
  obtain ⟨-, hrx, hstatus⟩ := s.stopPoll_sides sn
  unfold report
  split_ifs with hnack
  · have hsides := (s.stopPoll sn).nack_sides sn
    exact ⟨hsides.1.trans hrx, hsides.2.trans hstatus⟩
  · have hsides := (s.stopPoll sn).ack_sides sn
    exact ⟨hsides.1.trans hrx, hsides.2.trans hstatus⟩

theorem handleStatus_succ (fuel : ℕ) (sn ackSn : SequenceNumber10) (incrementVtA : Bool) :
    handleStatus header (fuel + 1) s sn ackSn incrementVtA =
      if sn.lt ackSn ∧ sn.lt s.vtS then
        if incrementVtA ∧ ¬ header.isNackPresent sn.value then
          handleStatus header fuel (s.report header sn.value).advanceVtA
            (sn.setModulusBase (s.report header sn.value).advanceVtA.vtA).succ
            (ackSn.setModulusBase (s.report header sn.value).advanceVtA.vtA) true
        else handleStatus header fuel (s.report header sn.value) sn.succ ackSn false
      else s := by
  rw [handleStatus]
  exact ite_not ..

theorem handleStatus_sides (fuel : ℕ) (sn ackSn : SequenceNumber10) (incrementVtA : Bool) :
    (handleStatus header fuel s sn ackSn incrementVtA).rxSide = s.rxSide ∧
      (handleStatus header fuel s sn ackSn incrementVtA).statusSide = s.statusSide := by
  induction fuel generalizing s sn ackSn incrementVtA with
  | zero => exact ⟨rfl, rfl⟩
  | succ fuel ih =>
    have hreport := s.report_sides header sn.value
    rw [handleStatus_succ]
    split_ifs with hgo hack
    · have hadvance := (s.report header sn.value).advanceVtA_sides
      rw [(ih _ _ _ _).1, (ih _ _ _ _).2, hadvance.1, hadvance.2]
      exact hreport
    · rw [(ih _ _ _ _).1, (ih _ _ _ _).2]
      exact hreport
    · exact ⟨rfl, rfl⟩

def rebased : LteRlcAm :=
  { s with
    vtA := s.vtA.setModulusBase s.vtA
    vtS := s.vtS.setModulusBase s.vtA
    vtMs := s.vtMs.setModulusBase s.vtA }

theorem receiveStatus_eq :
    s.receiveStatus header =
      handleStatus header 1024 s.rebased s.rebased.vtA
        ((SequenceNumber10.ofValue header.ackSn).setModulusBase s.rebased.vtA) true := rfl

theorem receiveStatus_sides :
    (s.receiveStatus header).rxSide = s.rxSide ∧
      (s.receiveStatus header).statusSide = s.statusSide := by
  rw [receiveStatus_eq]
  generalize 1024 = fuel
  exact s.rebased.handleStatus_sides header fuel _ _ _

end Status

end LteRlcAm
end NetGymSim.Lte

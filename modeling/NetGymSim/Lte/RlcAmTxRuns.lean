import NetGymSim.Lte.RlcAmTxBuffers

/-!
# The transmit buffers over runs

Each event keeps the two arrays consistent: what the sizes say is what the arrays hold, a PDU
in flight is in at most one of them, and a retransmission always finds its PDU.
-/

namespace NetGymSim.Lte
open NetGymSim.Lib
namespace LteRlcAm
namespace TxConsistent
variable {s t : LteRlcAm} {bytes : ℕ}

/-! ### Sending -/

theorem retransmit (h : TxConsistent s) {sn : ℕ} {pdu : List ℕ}
    (hn : s.retxBuffer sn = some pdu) : TxConsistent (s.retransmit sn pdu).1 := by
  unfold LteRlcAm.retransmit
  cases ({} : LteRlcAmHeader).deserialize pdu with
  | none => exact h
  | some read =>
    dsimp only
    split_ifs with hpoll
    · exact (h.congr s.poll_sides.1).moveToTxed hn
    · exact h.moveToTxed hn

theorem sendNew (h : TxConsistent s) (hroom : s.vtS.value ≠ s.vtMs.value) :
    TxConsistent (s.sendNew bytes).1 := by
  unfold LteRlcAm.sendNew
  cases s.txonBuffer with
  | nil => exact h
  | cons first behind => exact h.buildPdu hroom bytes first behind

theorem sends (h : TxConsistent s) {r : LteRlcAm × Option (List ℕ)} (hr : s.Sends bytes r) :
    TxConsistent r.1 := by
  cases hr with
  | nothing => exact h
  | again sn pdu hretx hfind hfits => exact h.retransmit (findRetx_mem hfind)
  | lost hretx hfind =>
    obtain ⟨sn, pdu, hsome⟩ := h.findRetx_isSome hretx
    rw [hfind] at hsome
    cases hsome
  | fresh hbytes hretx htxon hroom => exact h.sendNew hroom

theorem doNotifyTxOpportunity (h : TxConsistent s) (bytes : ℕ) :
    TxConsistent (s.doNotifyTxOpportunity bytes).1 := by
  by_cases hdue : s.statusDue bytes
  · rw [s.doNotifyTxOpportunity_of_due bytes hdue]
    exact h.congr (s.sendStatus_sides bytes).1
  · exact h.sends (s.doNotifyTxOpportunity_sends bytes hdue)

theorem doTransmitPdcpPdu (h : TxConsistent s) (p : List ℕ) :
    TxConsistent (s.doTransmitPdcpPdu p) := by
  unfold LteRlcAm.doTransmitPdcpPdu
  split_ifs with hroom
  all_goals exact ⟨h.vtA_base, h.vtS_base, h.vtMs_base, h.vtMs_dist, h.vtS_dist, h.txedSize,
    h.retxSize, h.once, h.outside⟩

/-! ### A STATUS PDU -/

section Report
variable (header : LteRlcAmHeader) {n : ℕ}

theorem stopPoll (h : TxConsistent s) (n : ℕ) : TxConsistent (s.stopPoll n) :=
  h.congr (s.stopPoll_sides n).1

theorem inFlight_congr (heq : t.txSide = s.txSide) : t.InFlight n ↔ s.InFlight n := by
  simp only [txSide, TxSide.mk.injEq] at heq
  unfold InFlight
  rw [heq.2.2.2.2.2.2.2.1, heq.2.2.2.2.2.2.2.2.2]

theorem report (h : TxConsistent s) (hin : s.InFlight n) : TxConsistent (s.report header n) := by
  unfold LteRlcAm.report
  split_ifs with hnack
  · exact (h.stopPoll n).nack n
  · exact (h.stopPoll n).ack ((inFlight_congr (s.stopPoll_sides n).1).mpr hin)

theorem nack_numbers (s : LteRlcAm) (n : ℕ) :
    (s.nack n).vtA = s.vtA ∧ (s.nack n).vtS = s.vtS := by
  unfold LteRlcAm.nack
  cases s.txedBuffer n <;> exact ⟨rfl, rfl⟩

theorem report_numbers (h : TxConsistent s) :
    (s.report header n).vtA = s.vtA ∧ (s.report header n).vtS = s.vtS := by
  have hside := (s.stopPoll_sides n).1
  simp only [txSide, TxSide.mk.injEq] at hside
  obtain ⟨-, -, -, -, -, -, -, hA, -, hS⟩ := hside
  rw [← hA, ← hS]
  unfold LteRlcAm.report
  split_ifs with hnack
  · exact nack_numbers _ n
  · rw [(h.stopPoll n).ack_eq n]
    exact ⟨rfl, rfl⟩

theorem report_gone (h : TxConsistent s) (hack : ¬ header.isNackPresent n) :
    (s.report header n).txedBuffer n = none ∧ (s.report header n).retxBuffer n = none := by
  unfold LteRlcAm.report
  rw [if_neg hack, (h.stopPoll n).ack_eq n]
  exact ⟨Function.update_self .., Function.update_self ..⟩

/-- The loop over the reported numbers. While the number VT(A) has been acknowledged, VT(A) moves
with the number of the loop. -/
theorem handleStatus (fuel : ℕ) (h : TxConsistent s) {sn ackSn : SequenceNumber10}
    {incrementVtA : Bool} (hsn : sn.modulusBase = s.vtA.value)
    (hack : ackSn.modulusBase = s.vtA.value) (hfirst : incrementVtA → sn.value = s.vtA.value) :
    TxConsistent (handleStatus header fuel s sn ackSn incrementVtA) := by
  induction fuel generalizing s sn ackSn incrementVtA with
  | zero => exact h
  | succ fuel ih =>
    rw [handleStatus_succ]
    obtain ⟨hA, hS⟩ := h.report_numbers header (n := sn.value)
    split_ifs with hgo hinc
    · have hlt : sn.dist < s.vtS.dist :=
        (SequenceNumber10.lt_iff (hsn.trans h.vtS_base.symm)).mp hgo.2
      have hreport := h.report header ((h.inFlight_value hsn).mpr hlt)
      have hgone := h.report_gone header hinc.2
      rw [hfirst hinc.1] at hreport hgone hA hS
      rw [hfirst hinc.1]
      have hadvance : TxConsistent (s.report header s.vtA.value).advanceVtA := by
        apply hreport.advanceVtA
        · rw [hA]
          exact hgone.1
        · rw [hA]
          exact hgone.2
        · rw [hS]
          omega
      apply ih hadvance
      · rfl
      · rfl
      · intro _
        show (sn.value + 1) % 1024 = ((s.report header s.vtA.value).vtA.value + 1) % 1024
        rw [hA, hfirst hinc.1]
    · have hlt : sn.dist < s.vtS.dist :=
        (SequenceNumber10.lt_iff (hsn.trans h.vtS_base.symm)).mp hgo.2
      have hreport := h.report header ((h.inFlight_value hsn).mpr hlt)
      apply ih hreport
      · rw [hA]
        exact hsn
      · rw [hA]
        exact hack
      · exact fun hfalse => absurd hfalse (by decide)
    · exact h

theorem rebased (h : TxConsistent s) : s.rebased = s := by
  unfold LteRlcAm.rebased
  rw [SequenceNumber10.setModulusBase_eq_self h.vtA_base,
    SequenceNumber10.setModulusBase_eq_self h.vtS_base,
    SequenceNumber10.setModulusBase_eq_self h.vtMs_base]

theorem receiveStatus (h : TxConsistent s) : TxConsistent (s.receiveStatus header) := by
  rw [receiveStatus_eq, h.rebased]
  exact h.handleStatus header 1024 h.vtA_base rfl fun _ => rfl

end Report

/-! ### The other events -/

theorem doReceivePdu (h : TxConsistent s) (packet : List ℕ) :
    TxConsistent (s.doReceivePdu packet) := by
  unfold LteRlcAm.doReceivePdu
  cases ({} : LteRlcAmHeader).deserialize packet with
  | none => exact h
  | some read =>
    dsimp only
    split_ifs with hdata
    · exact h.congr (s.receiveData_sides packet read.1).1
    · exact h.receiveStatus read.1

theorem moveAllToRetx (h : TxConsistent s) (fuel : ℕ) (sn : SequenceNumber10) :
    TxConsistent (moveAllToRetx fuel s sn) := by
  induction fuel generalizing s sn with
  | zero => exact h
  | succ fuel ih =>
    unfold LteRlcAm.moveAllToRetx
    split_ifs with hgo
    · exact ih (h.nack sn.value) sn.succ
    · exact h

theorem expirePollRetransmitTimer (h : TxConsistent s) :
    TxConsistent s.expirePollRetransmitTimer := by
  have hstart : TxConsistent { s with
      pollRetransmitTimer := false, pollRetransmitTimerJustExpired := true } := h.congr rfl
  unfold LteRlcAm.expirePollRetransmitTimer
  dsimp only
  split_ifs with hmove
  · exact hstart.moveAllToRetx 1024 s.vtA
  · exact hstart

theorem expireRbsTimer (h : TxConsistent s) : TxConsistent s.expireRbsTimer := by
  unfold LteRlcAm.expireRbsTimer
  split_ifs with hmore
  · exact h
  · exact h.congr rfl

theorem next (h : TxConsistent s) (e : Event) : TxConsistent (s.next e) := by
  cases e with
  | transmitPdcpPdu p => exact h.doTransmitPdcpPdu p
  | notifyTxOpportunity bytes => exact h.doNotifyTxOpportunity bytes
  | receivePdu packet => exact h.doReceivePdu packet
  | expireReorderingTimer => exact h.congr s.expireReorderingTimer_txSide
  | expirePollRetransmitTimer => exact h.expirePollRetransmitTimer
  | expireStatusProhibitTimer => exact h.congr rfl
  | expireRbsTimer => exact h.expireRbsTimer

theorem initial (config : RlcAmConfig) : TxConsistent (initial config) where
  vtA_base := rfl
  vtS_base := rfl
  vtMs_base := rfl
  vtMs_dist := by
    show (SequenceNumber10.ofValue amWindowSize).dist = amWindowSize
    decide
  vtS_dist := by
    show (SequenceNumber10.ofValue 0).dist ≤ amWindowSize
    decide
  txedSize := storeSize_empty.symm
  retxSize := storeSize_empty.symm
  once := fun _ => Or.inl rfl
  outside := fun _ _ => ⟨rfl, rfl⟩

theorem of_reaches {config : RlcAmConfig} {es : List Event}
    (h : machine.Reaches (LteRlcAm.initial config) es s) : TxConsistent s := by
  apply Machine.Reaches.invariant (P := TxConsistent) (initial config) _ h
  intro s e hs _
  exact hs.next e

end TxConsistent

/-! ### Every reachable state -/

/-- The sizes are the sums of the stored PDUs, a number in [VT(A), VT(S)) has a PDU in at most one
of the two buffers and any other number has none, and the search for a retransmission finds a PDU
when there is one. -/
theorem transmit_buffers_agree {config : RlcAmConfig} {es : List Event} {s : LteRlcAm}
    (h : machine.Reaches (initial config) es s) :
    s.txedBufferSize = storeSize List.length 1024 s.txedBuffer ∧
      s.retxBufferSize = storeSize List.length 1024 s.retxBuffer ∧
      (∀ n, s.InFlight n → s.txedBuffer n = none ∨ s.retxBuffer n = none) ∧
      (∀ n, ¬ s.InFlight n → s.txedBuffer n = none ∧ s.retxBuffer n = none) ∧
      (s.retxBufferSize > 0 → ∃ sn pdu, s.findRetx 1024 s.vtA = some (sn, pdu) ∧
        s.InFlight sn ∧ s.retxBuffer sn = some pdu) := by
  have hs := TxConsistent.of_reaches h
  refine ⟨hs.txedSize, hs.retxSize, fun n _ => hs.once n, hs.outside, ?_⟩
  intro hpos
  obtain ⟨sn, pdu, hfind⟩ := hs.findRetx_isSome hpos
  have hmem := findRetx_mem hfind
  exact ⟨sn, pdu, hfind, hs.retx_inFlight hmem, hmem⟩

def unansweredPoll : List Event :=
  [.transmitPdcpPdu [1, 2, 3], .notifyTxOpportunity 100, .expirePollRetransmitTimer]

theorem unanswered_poll_agrees :
    (machine.exec (initial {}) unansweredPoll).retxBufferSize = 7 ∧
      ∃ sn pdu, (machine.exec (initial {}) unansweredPoll).findRetx 1024
        (machine.exec (initial {}) unansweredPoll).vtA = some (sn, pdu) := by
  have hrun : machine.Permits (initial {}) unansweredPoll := by decide +kernel
  obtain ⟨-, -, -, -, hfind⟩ := transmit_buffers_agree hrun.reaches
  have hsize : (machine.exec (initial {}) unansweredPoll).retxBufferSize = 7 := by decide +kernel
  obtain ⟨sn, pdu, hfound, -, -⟩ := hfind (by rw [hsize]; decide)
  exact ⟨hsize, sn, pdu, hfound⟩

end LteRlcAm
end NetGymSim.Lte

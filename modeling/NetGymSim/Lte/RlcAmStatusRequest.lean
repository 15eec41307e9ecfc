import NetGymSim.Lte.RlcAmSides

/-!
# The request for a STATUS PDU

A poll raises the request together with the size that is reported for the STATUS PDU, and
sending the PDU clears both. The expiry of the reordering timer raises the request alone.
-/

namespace NetGymSim.Lte
open NetGymSim.Lib
namespace LteRlcAm
open LteRlcAmHeader (statusLength)

def isPoll (packet : List ℕ) : Bool :=
  match ({} : LteRlcAmHeader).deserialize packet with
  | none => false
  | some (header, _) => header.dataControlBit = dataPdu ∧ header.pollingBit = 1

section Events
variable (s : LteRlcAm)

theorem doReceivePdu_statusSide (packet : List ℕ) :
    (s.doReceivePdu packet).statusSide =
      if isPoll packet then
        { s.statusSide with statusPduRequested := true, statusPduBufferSize := 4 }
      else s.statusSide := by
  unfold doReceivePdu isPoll
  cases ({} : LteRlcAmHeader).deserialize packet with
  | none => rfl
  | some read =>
    dsimp only
    by_cases hdata : read.1.dataControlBit = dataPdu
    · rw [if_pos hdata, (s.receiveData_sides packet read.1).2]
      unfold polled
      by_cases hpoll : read.1.pollingBit = 1
      · rw [if_pos hpoll, if_pos (decide_eq_true ⟨hdata, hpoll⟩)]
        rfl
      · rw [if_neg hpoll, if_neg fun h => hpoll (of_decide_eq_true h).2]
    · rw [if_neg hdata, if_neg fun h => hdata (of_decide_eq_true h).1]
      exact (s.receiveStatus_sides read.1).2

theorem expireReorderingTimer_statusSide :
    s.expireReorderingTimer.statusSide = { s.statusSide with statusPduRequested := true } := by
  unfold expireReorderingTimer
  dsimp only
  split_ifs <;> rfl

theorem expireRbsTimer_statusSide : s.expireRbsTimer.statusSide = s.statusSide := by
  unfold expireRbsTimer
  split_ifs <;> rfl

end Events

/-! ### What a pending request needs -/

/-- A pending request that nothing prohibits has the size of a STATUS PDU at least, and is
reported to the MAC. -/
def Schedulable (s : LteRlcAm) : Prop :=
  s.statusPduRequested → ¬ s.statusProhibitTimer →
    statusLength 0 ≤ s.statusPduBufferSize ∧
      ∃ r, s.doReportBufferStatus = some r ∧ r.statusPduSize ≠ 0

theorem schedulable_iff (s : LteRlcAm) :
    s.Schedulable ↔ (s.statusPduRequested ∧ ¬ s.statusProhibitTimer →
      statusLength 0 ≤ s.statusPduBufferSize) := by
  constructor
  · intro h hdue
    exact (h hdue.1 hdue.2).1
  · intro h hrequested hprohibit
    have hsize := h ⟨hrequested, hprohibit⟩
    have hreport : s.doReportBufferStatus = some
        ⟨s.txonBufferSize, s.retxBufferSize + s.txedBufferSize, s.statusPduBufferSize⟩ := by
      unfold doReportBufferStatus
      unfold statusLength at hsize
      dsimp only
      rw [if_pos (show s.statusPduRequested ∧ ¬ s.statusProhibitTimer from
        ⟨hrequested, hprohibit⟩)]
      exact if_pos (Or.inr (Or.inr (by omega)))
    refine ⟨hsize, _, hreport, ?_⟩
    unfold statusLength at hsize
    dsimp only
    omega

/-- The size that is reported is that of a poll, and a poll is a request. -/
def SizeOfPoll (s : LteRlcAm) : Prop :=
  s.statusPduBufferSize = 0 ∨ s.statusPduBufferSize = 4 ∧ s.statusPduRequested

/-- Where the size that a poll sets is missing, the reordering timer expires only while a STATUS
PDU is prohibited, and the prohibition does not end with a request. -/
def RaisedWithSize (s : LteRlcAm) : Event → Prop
  | .expireReorderingTimer => s.statusProhibitTimer ∨ s.statusPduBufferSize ≠ 0
  | .expireStatusProhibitTimer => s.statusPduRequested → s.statusPduBufferSize ≠ 0
  | _ => True

section Step
variable {s t : LteRlcAm}

theorem schedulable_congr (h : t.statusSide = s.statusSide) : t.Schedulable ↔ s.Schedulable := by
  simp only [statusSide, StatusSide.mk.injEq] at h
  rw [schedulable_iff, schedulable_iff, h.1, h.2.1, h.2.2]

theorem SizeOfPoll.congr (h : t.statusSide = s.statusSide) (hs : SizeOfPoll s) :
    SizeOfPoll t := by
  simp only [statusSide, StatusSide.mk.injEq] at h
  unfold SizeOfPoll
  rw [h.1, h.2.1]
  exact hs

theorem SizeOfPoll.next (hs : SizeOfPoll s) (e : Event) : SizeOfPoll (s.next e) := by
  cases e with
  | transmitPdcpPdu p => exact hs.congr (s.doTransmitPdcpPdu_sides p).2
  | notifyTxOpportunity bytes =>
    show SizeOfPoll (s.doNotifyTxOpportunity bytes).1
    by_cases hdue : s.statusDue bytes
    · rw [s.doNotifyTxOpportunity_of_due bytes hdue]
      exact Or.inl rfl
    · exact hs.congr ((s.doNotifyTxOpportunity_sends bytes hdue).sides).2
  | receivePdu packet =>
    have hside := s.doReceivePdu_statusSide packet
    split_ifs at hside with hpoll
    · simp only [statusSide, StatusSide.mk.injEq] at hside
      exact Or.inr ⟨hside.2.1, hside.1⟩
    · exact hs.congr hside
  | expireReorderingTimer =>
    have hside := s.expireReorderingTimer_statusSide
    simp only [statusSide, StatusSide.mk.injEq] at hside
    show SizeOfPoll s.expireReorderingTimer
    unfold SizeOfPoll
    rw [hside.1, hside.2.1]
    exact hs.imp_right fun h => ⟨h.1, rfl⟩
  | expirePollRetransmitTimer => exact hs.congr s.expirePollRetransmitTimer_sides.2
  | expireStatusProhibitTimer => exact hs
  | expireRbsTimer => exact hs.congr s.expireRbsTimer_statusSide

theorem next_schedulable_iff (hsize : SizeOfPoll s) (hs : s.Schedulable) (e : Event) :
    (s.next e).Schedulable ↔ s.RaisedWithSize e := by
  have hs' := (schedulable_iff s).mp hs
  have hcase : s.statusPduBufferSize ≠ 0 ↔ statusLength 0 ≤ s.statusPduBufferSize := by
    have hlen : statusLength 0 = 2 := rfl
    rcases hsize with h | h <;> omega
  cases e with
  | transmitPdcpPdu p =>
    exact iff_of_true ((schedulable_congr (s.doTransmitPdcpPdu_sides p).2).mpr hs) trivial
  | notifyTxOpportunity bytes =>
    apply iff_of_true _ trivial
    show (s.doNotifyTxOpportunity bytes).1.Schedulable
    by_cases hdue : s.statusDue bytes
    · rw [s.doNotifyTxOpportunity_of_due bytes hdue]
      intro hfalse
      cases hfalse
    · exact (schedulable_congr ((s.doNotifyTxOpportunity_sends bytes hdue).sides).2).mpr hs
  | receivePdu packet =>
    apply iff_of_true _ trivial
    show (s.doReceivePdu packet).Schedulable
    have hside := s.doReceivePdu_statusSide packet
    split_ifs at hside with hpoll
    · simp only [statusSide, StatusSide.mk.injEq] at hside
      rw [schedulable_iff, hside.2.1]
      exact fun _ => by decide
    · exact (schedulable_congr hside).mpr hs
  | expireReorderingTimer =>
    have hside := s.expireReorderingTimer_statusSide
    simp only [statusSide, StatusSide.mk.injEq] at hside
    show s.expireReorderingTimer.Schedulable ↔ _
    rw [schedulable_iff, hside.1, hside.2.1, hside.2.2, ← hcase]
    unfold RaisedWithSize
    simp only [true_and]
    exact (Decidable.or_iff_not_imp_left).symm
  | expirePollRetransmitTimer =>
    exact iff_of_true ((schedulable_congr s.expirePollRetransmitTimer_sides.2).mpr hs) trivial
  | expireStatusProhibitTimer =>
    show s.expireStatusProhibitTimer.Schedulable ↔ (s.statusPduRequested → _)
    rw [schedulable_iff, hcase]
    unfold expireStatusProhibitTimer
    simp
  | expireRbsTimer =>
    exact iff_of_true ((schedulable_congr s.expireRbsTimer_statusSide).mpr hs) trivial

end Step

/-! ### Runs -/

def pollAfter (s : LteRlcAm) (polled : Bool) : Event → Bool
  | .notifyTxOpportunity bytes => polled ∧ ¬ s.statusDue bytes
  | .receivePdu packet => polled ∨ isPoll packet
  | _ => polled

def pollSince (s : LteRlcAm) (polled : Bool) : List Event → Bool
  | [] => polled
  | e :: es => pollSince (s.next e) (s.pollAfter polled e) es

/-- In a state that a run has reached, the request is raised with its size: the reordering timer
expires with a poll received since the last STATUS PDU, or while that is prohibited, and the
prohibition ends without a request or with such a poll. -/
def RaisedAfterPoll (start : LteRlcAm) (done : List Event) : Event → Prop
  | .expireReorderingTimer =>
      (machine.exec start done).statusProhibitTimer ∨ start.pollSince false done
  | .expireStatusProhibitTimer =>
      (machine.exec start done).statusPduRequested → start.pollSince false done
  | _ => True

theorem next_sizeOfPoll {s : LteRlcAm} {polled : Bool}
    (h : s.statusPduBufferSize = if polled then 4 else 0) (e : Event) :
    (s.next e).statusPduBufferSize = if s.pollAfter polled e then 4 else 0 := by
  have hsame : ∀ t : LteRlcAm, t.statusSide = s.statusSide →
      t.statusPduBufferSize = if polled then 4 else 0 := by
    intro t ht
    simp only [statusSide, StatusSide.mk.injEq] at ht
    rw [ht.2.1, h]
  cases e with
  | transmitPdcpPdu p => exact hsame _ (s.doTransmitPdcpPdu_sides p).2
  | notifyTxOpportunity bytes =>
    show (s.doNotifyTxOpportunity bytes).1.statusPduBufferSize = _
    unfold pollAfter
    by_cases hdue : s.statusDue bytes
    · rw [s.doNotifyTxOpportunity_of_due bytes hdue]
      simp [hdue, sendStatus]
    · simp only [hdue, not_false_eq_true, and_true, Bool.decide_eq_true]
      exact hsame _ ((s.doNotifyTxOpportunity_sends bytes hdue).sides).2
  | receivePdu packet =>
    have hside := s.doReceivePdu_statusSide packet
    unfold pollAfter
    by_cases hpoll : isPoll packet
    · rw [if_pos hpoll] at hside
      simp only [statusSide, StatusSide.mk.injEq] at hside
      simp only [hpoll, or_true, decide_true, if_true]
      exact hside.2.1
    · rw [if_neg hpoll] at hside
      simp only [hpoll, Bool.false_eq_true, or_false, Bool.decide_eq_true]
      exact hsame _ hside
  | expireReorderingTimer =>
    have hside := s.expireReorderingTimer_statusSide
    simp only [statusSide, StatusSide.mk.injEq] at hside
    exact hside.2.1.trans h
  | expirePollRetransmitTimer => exact hsame _ s.expirePollRetransmitTimer_sides.2
  | expireStatusProhibitTimer => exact h
  | expireRbsTimer => exact hsame _ s.expireRbsTimer_statusSide

theorem exec_sizeOfPoll {s : LteRlcAm} {polled : Bool}
    (h : s.statusPduBufferSize = if polled then 4 else 0) (es : List Event) :
    (machine.exec s es).statusPduBufferSize = if s.pollSince polled es then 4 else 0 := by
  induction es generalizing s polled with
  | nil => exact h
  | cons e es ih => exact ih (next_sizeOfPoll h e)

theorem raisedAfterPoll_iff (config : RlcAmConfig) (done : List Event) (e : Event) :
    (machine.exec (initial config) done).RaisedWithSize e ↔
      (initial config).RaisedAfterPoll done e := by
  have hsize := @exec_sizeOfPoll (initial config) false rfl done
  have hpoll : (machine.exec (initial config) done).statusPduBufferSize ≠ 0 ↔
      (initial config).pollSince false done := by
    rw [hsize]
    split_ifs with hp
    · exact iff_of_true (by decide) hp
    · exact iff_of_false (fun hne => hne rfl) hp
  cases e with
  | expireReorderingTimer => exact or_congr_right hpoll
  | expireStatusProhibitTimer => exact imp_congr_right fun _ => hpoll
  | transmitPdcpPdu p => exact Iff.rfl
  | notifyTxOpportunity bytes => exact Iff.rfl
  | receivePdu packet => exact Iff.rfl
  | expirePollRetransmitTimer => exact Iff.rfl
  | expireRbsTimer => exact Iff.rfl

/-- A pending request can be scheduled in every state of a run just when each expiry of the
reordering and of the prohibit timer finds the size that a poll has set. -/
theorem request_schedulable_iff (config : RlcAmConfig) {es : List Event}
    (hes : machine.Permits (initial config) es) :
    (∀ done, done <+: es → (machine.exec (initial config) done).Schedulable) ↔
      ∀ done e, done ++ [e] <+: es → (initial config).RaisedAfterPoll done e := by
  have hstart : (initial config).Schedulable := fun hfalse => by cases hfalse
  rw [← Machine.Permits.restrict_iff (C := RaisedWithSize) (P := Schedulable) (Q := SizeOfPoll)
    (fun s e hQ _ => hQ.next e) (fun s e hQ hP _ => next_schedulable_iff hQ hP e) (Or.inl rfl)
    hstart hes, Machine.Permits.restrict_iff_steps hes]
  simp only [raisedAfterPoll_iff]

/-- A data PDU with sequence number 1 asks for a report, which is sent. Number 0 is still missing
when the reordering timer that it started expires, and then the prohibit timer. -/
def missingFront : List Event :=
  [.receivePdu [0xa0, 0x01, 0x80, 0x00, 0x2a], .notifyTxOpportunity 10, .expireReorderingTimer,
    .expireStatusProhibitTimer]

theorem missingFront_schedulable_iff :
    (∀ done, done <+: missingFront → (machine.exec (initial {}) done).Schedulable) ↔
      ∀ done e, done ++ [e] <+: missingFront → (initial {}).RaisedAfterPoll done e :=
  request_schedulable_iff {} (by decide +kernel)

/-- The STATUS PDU that would report it is requested and nothing is reported to the MAC. -/
theorem missing_front_not_schedulable :
    machine.Permits (initial {}) missingFront ∧
      (machine.exec (initial {}) missingFront).statusPduRequested ∧
      (machine.exec (initial {}) missingFront).doReportBufferStatus = none ∧
      ¬ (machine.exec (initial {}) missingFront).Schedulable := by
  have hrequested : (machine.exec (initial {}) missingFront).statusPduRequested := by
    decide +kernel
  have hprohibit : ¬ (machine.exec (initial {}) missingFront).statusProhibitTimer := by
    decide +kernel
  have hreport : (machine.exec (initial {}) missingFront).doReportBufferStatus = none := by
    decide +kernel
  refine ⟨by decide +kernel, hrequested, hreport, ?_⟩
  intro h
  obtain ⟨-, r, hr, -⟩ := h hrequested hprohibit
  rw [hreport] at hr
  cases hr

end LteRlcAm
end NetGymSim.Lte

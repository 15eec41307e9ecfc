import NetGymSim.Gma.ControlSteps

/-!
# What a TSU and its TSA do to an endpoint

Only a TSU from the peer changes the emulated delays, and it is answered with what it
changed; only a TSA that is for a message that waits is handed over. A message keeps its
OWD vector through all retransmissions.
-/

namespace NetGymSim.Gma
open NetGymSim.Lib
namespace Endpoint

section Sender
variable {s s' t : Endpoint}

structure SameDelays (s s' : Endpoint) : Prop where
  delay : s'.emulateDelay = s.emulateDelay
  maxTsu : s'.maxTsuSeqNum = s.maxTsuSeqNum
  cids : s'.linkMap.linkState.cidList = s.linkMap.linkState.cidList
  config : s'.config = s.config

namespace SameDelays

theorem refl (s : Endpoint) : SameDelays s s := ⟨rfl, rfl, rfl, rfl⟩

theorem trans (h : SameDelays s s') (h' : SameDelays s' t) : SameDelays s t :=
  ⟨h'.delay.trans h.delay, h'.maxTsu.trans h.maxTsu, h'.cids.trans h.cids,
    h'.config.trans h.config⟩

theorem newTsu_iff (h : SameDelays s s') (header : MxControlHeader) :
    s'.newTsu header ↔ s.newTsu header := by
  unfold newTsu
  rw [h.config, h.maxTsu]

end SameDelays

theorem sendNew_same (s : Endpoint) (header : MxControlHeader) : SameDelays s (s.sendNew header) :=
  ⟨rfl, rfl, rfl, rfl⟩

theorem respondAck_same (s : Endpoint) (header : MxControlHeader) (cid : Cid) :
    SameDelays s (s.respondAck header cid) :=
  ⟨rfl, rfl, rfl, rfl⟩

theorem sendAll_same (s : Endpoint) (headers : List MxControlHeader) :
    SameDelays s (s.sendAll headers) ∧ (s.sendAll headers).replies = s.replies := by
  induction headers generalizing s with
  | nil => exact ⟨.refl s, rfl⟩
  | cons header headers ih =>
    obtain ⟨h, hr⟩ := ih (s.sendNew header)
    exact ⟨(sendNew_same s header).trans h, hr⟩

theorem recvLinkMap_same (s : Endpoint) (header : MxControlHeader) (a : Answers) :
    SameDelays s (s.recvLinkMap header a) ∧ (s.recvLinkMap header a).replies = s.replies := by
  have hu : SameDelays s (s.updateLinkMap header) := ⟨rfl, rfl, LinkMap.recv_cidList _ _, rfl⟩
  unfold recvLinkMap
  split_ifs
  · obtain ⟨h, hr⟩ := sendAll_same (s.updateLinkMap header)
      ((s.updateLinkMap header).tsuHeaders a.linkDownTsu)
    exact ⟨hu.trans h, hr⟩
  · exact ⟨hu, rfl⟩

theorem recvAck_same (s : Endpoint) (header : MxControlHeader) :
    SameDelays s (s.recvAck header) := by
  unfold recvAck
  cases s.ackLookup header.sequenceNumber with
  | none => exact .refl s
  | some e =>
    dsimp only
    refine ⟨?_, ?_, ?_, ?_⟩
    · split_ifs <;> rfl
    · split_ifs <;> rfl
    · rw [LinkState.ctrlMsgUp, LinkState.markUp_cidList]
      split_ifs <;> rfl
    · split_ifs <;> rfl

theorem retxCtrlMsgExpires_same (s : Endpoint) (csn : ℕ) (a : Answers) :
    SameDelays s (s.retxCtrlMsgExpires csn a) := by
  unfold retxCtrlMsgExpires
  cases s.txedCtrQueue[csn]? with
  | none => exact .refl s
  | some item =>
    dsimp only
    split_ifs
    · have hm : SameDelays s (s.markGivenUp item) :=
        ⟨rfl, rfl, LinkState.markDown_cidList _ _ _, rfl⟩
      unfold giveUp
      dsimp only
      split_ifs
      · have h : SameDelays s ((s.markGivenUp item).sendTsu a.linkDownTsu) :=
          hm.trans (sendAll_same _ _).1
        exact ⟨h.delay, h.maxTsu, h.cids, h.config⟩
      · exact ⟨hm.delay, hm.maxTsu, hm.cids, hm.config⟩
    · exact ⟨rfl, rfl, rfl, rfl⟩
    · exact ⟨rfl, rfl, rfl, rfl⟩

theorem next_same (s : Endpoint) (e : Event)
    (he : ∀ header a, e = .recv header a → header.type ≠ .tsu) : SameDelays s (s.next e) := by
  cases e with
  | probe probeFlag => exact (sendAll_same s _).1
  | tsu d => exact (sendAll_same s _).1
  | expire csn a =>
    have hf : SameDelays s (s.fire csn) := ⟨rfl, rfl, rfl, rfl⟩
    exact hf.trans (retxCtrlMsgExpires_same (s.fire csn) csn a)
  | recv header a =>
    have hne := he header a rfl
    have hm := (recvLinkMap_same s header a).1
    simp only [next, recvCtrlMsg]
    cases ht : header.type with
    | tsu => exact absurd ht hne
    | probe => exact hm.trans (respondAck_same _ _ _)
    | ack => exact hm.trans (recvAck_same _ header)
    | tsa => exact hm.trans (recvAck_same _ header)
    | qosTestingRequest =>
      exact (hm.trans (respondAck_same _ header _)).trans (sendNew_same _ _)
    | qosTestingStartNotify =>
      dsimp only
      split_ifs
      · exact hm.trans (respondAck_same _ _ _)
      · exact hm
    | qosViolation => exact hm.trans (respondAck_same _ _ _)
  | linkDown cause cid => exact ⟨rfl, rfl, LinkState.markDown_cidList _ _ _, rfl⟩
  | linkUp cause cid => exact ⟨rfl, rfl, LinkState.markUp_cidList _ _ _, rfl⟩
  | _ => exact ⟨rfl, rfl, rfl, rfl⟩

variable {header : MxControlHeader} {cids : List Cid}

theorem recv_tsu_eq (ht : header.type = .tsu) (a : Answers) :
    s.next (.recv header a) = (s.recvLinkMap header a).recvTsu header := by
  simp only [next, recvCtrlMsg, ht]

theorem recv_tsu (ht : header.type = .tsu) (hr : header.reverseFlag = 0) (a : Answers)
    (hc : s.linkMap.linkState.cidList = cids) :
    ∃ g : MxControlHeader, (g.type = .tsa ∧ g.sequenceNumber = header.sequenceNumber) ∧
      (s.next (.recv header a)).replies = s.replies ++ [g] ∧
      if s.newTsu header then
        (s.next (.recv header a)).emulateDelay =
            (emulateDelays cids header.owdVector s.emulateDelay).1 ∧
          g.owdVector = encodeOffsets (emulateDelays cids header.owdVector s.emulateDelay).2
      else (s.next (.recv header a)).emulateDelay = s.emulateDelay ∧
        g.owdVector = encodeOffsets (cids.map fun _ => 0) := by
  obtain ⟨hm, hrep⟩ := recvLinkMap_same s header a
  have hturn : ¬ (s.recvLinkMap header a).turnsRound header := by
    rintro ⟨-, -, -, hone⟩
    omega
  rw [recv_tsu_eq ht, recvTsu, if_neg hturn, ← hrep, ← hm.delay, ← hc, ← hm.cids]
  simp only [← hm.newTsu_iff header]
  unfold acceptTsu
  dsimp only
  split_ifs
  · refine ⟨_, ?_, rfl, rfl, rfl⟩
    exact ⟨rfl, rfl⟩
  · refine ⟨_, ?_, rfl, rfl, rfl⟩
    exact ⟨rfl, rfl⟩

theorem next_normal (e : Event) (he : s.enabled e) (hn : cids.Nodup) (hne : cids ≠ [])
    (hc : s.linkMap.linkState.cidList = cids) (hz : Normal cids s.emulateDelay) :
    (s.next e).linkMap.linkState.cidList = cids ∧ Normal cids (s.next e).emulateDelay := by
  by_cases hother : ∀ header a, e = .recv header a → header.type ≠ .tsu
  · have h := next_same s e hother
    exact ⟨h.cids.trans hc, h.delay.symm ▸ hz⟩
  · push Not at hother
    obtain ⟨header, a, rfl, ht⟩ := hother
    have hlen : cids.length = header.owdVector.length := hc ▸ he.2 ht
    have hm := (recvLinkMap_same s header a).1
    rw [recv_tsu_eq ht, recvTsu]
    split_ifs
    · exact ⟨hm.cids.trans hc, hm.delay.symm ▸ hz⟩
    · unfold acceptTsu
      dsimp only
      split_ifs
      · refine ⟨hm.cids.trans hc, ?_⟩
        rw [hm.cids, hc]
        exact emulateDelays_normal hn hlen hne
      · exact ⟨hm.cids.trans hc, hm.delay.symm ▸ hz⟩

end Sender

section Measuring
variable {s : Endpoint} {header : MxControlHeader}

def handsOver (s : Endpoint) (header : MxControlHeader) : Prop :=
  (s.ackLookup header.sequenceNumber).isSome ∧ s.config.rxMode ∧
    0 < csnDiff header.sequenceNumber s.maxTsaSn

instance handsOver.decidable (s : Endpoint) (header : MxControlHeader) :
    Decidable (s.handsOver header) :=
  inferInstanceAs (Decidable (_ ∧ _ ∧ _))

theorem recvAck_handedOver (s : Endpoint) (ht : header.type = .tsa) :
    (s.recvAck header).handedOver =
      s.handedOver ++ if s.handsOver header then [header] else [] := by
  unfold recvAck
  cases hl : s.ackLookup header.sequenceNumber with
  | none =>
    have hno : ¬ s.handsOver header := fun h => by simpa [hl] using h.1
    simp [hno]
  | some e =>
    have hiff : s.handsOver header ↔
        s.config.rxMode ∧ 0 < csnDiff header.sequenceNumber s.maxTsaSn := by
      simp [handsOver, hl]
    by_cases h : s.config.rxMode ∧ 0 < csnDiff header.sequenceNumber s.maxTsaSn
    · simp [acknowledge, ht, h, hiff]
    · simp [acknowledge, h, hiff]

theorem recv_tsa (ht : header.type = .tsa) (a : Answers) :
    (s.next (.recv header a)).handedOver =
      s.handedOver ++ if s.handsOver header then [header] else [] := by
  have hasks : ¬ s.asksTsu header a := by
    rintro ⟨⟨h | h, -⟩, -⟩ <;> simp [ht] at h
  simp only [next, recvCtrlMsg, ht, recvLinkMap, if_neg hasks]
  exact recvAck_handedOver (s.updateLinkMap header) ht

def sentCopies (s : Endpoint) (ident : ℕ) : List MxControlHeader :=
  s.log.flatMap fun
    | .sent i copies => if i = ident then copies else []
    | _ => []

theorem mem_sentCopies {ident : ℕ} : header ∈ s.sentCopies ident ↔
    ∃ copies, .sent ident copies ∈ s.log ∧ header ∈ copies := by
  unfold sentCopies
  rw [List.mem_flatMap]
  constructor
  · rintro ⟨rec, hrec, hm⟩
    cases rec with
    | sent i copies =>
      dsimp only at hm
      split_ifs at hm with hi
      · exact ⟨copies, hi ▸ hrec, hm⟩
      · exact absurd hm List.not_mem_nil
    | _ => exact absurd hm List.not_mem_nil
  · rintro ⟨copies, hrec, hm⟩
    exact ⟨_, hrec, by simpa using hm⟩

end Measuring

structure VectorsFixed (s : Endpoint) (vector : ℕ → List ℕ) : Prop where
  queue : ∀ (key : ℕ) (item : TexedCtrQueueItem), s.txedCtrQueue[key]? = some item →
    item.ident < s.idents ∧ item.mxControlHeader.owdVector = vector item.ident
  log : ∀ (ident : ℕ) (copies : List MxControlHeader), .sent ident copies ∈ s.log →
    ident < s.idents ∧ ∀ h ∈ copies, h.owdVector = vector ident

namespace VectorsFixed
variable {s s' : Endpoint} {vector : ℕ → List ℕ} {csn : ℕ} {item : TexedCtrQueueItem}

theorem copies_vector (s : Endpoint) (header : MxControlHeader) :
    ∀ h ∈ s.copies header, h.owdVector = header.owdVector := by
  intro h hm
  unfold copies at hm
  cases ht : header.type <;> simp only [ht] at hm
  case tsu =>
    obtain ⟨p, -, rfl⟩ := List.mem_map.mp hm
    rfl
  all_goals rw [List.mem_singleton.mp hm]

theorem congr (h : VectorsFixed s vector) (hq : s'.txedCtrQueue = s.txedCtrQueue)
    (hi : s'.idents = s.idents) (hl : s'.log = s.log) : VectorsFixed s' vector := by
  refine ⟨?_, ?_⟩
  · rw [hq, hi]; exact h.queue
  · rw [hl, hi]; exact h.log

theorem erase (h : VectorsFixed s vector) (key : ℕ) :
    VectorsFixed { s with txedCtrQueue := s.txedCtrQueue.erase key } vector :=
  ⟨fun _ _ hq => h.queue _ _ (erase_some hq).2, h.log⟩

theorem append (h : VectorsFixed s vector) (rec : CtrlRecord)
    (hrec : ∀ ident copies, rec ≠ .sent ident copies) :
    VectorsFixed { s with log := s.log ++ [rec] } vector := by
  refine ⟨h.queue, fun ident copies hm => ?_⟩
  rcases List.mem_append.mp hm with hm | hm
  · exact h.log ident copies hm
  · exact absurd (List.mem_singleton.mp hm).symm (hrec ident copies)

theorem sendCtrlMsg (h : VectorsFixed s vector) (header : MxControlHeader) (forwarded : Bool) :
    VectorsFixed (s.sendCtrlMsg header forwarded)
      (Function.update vector s.idents header.owdVector) := by
  have hold : ∀ i < s.idents, Function.update vector s.idents header.owdVector i = vector i :=
    fun i hi => Function.update_of_ne (Nat.ne_of_lt hi) _ _
  refine ⟨fun key item hq => ?_, fun ident copies hm => ?_⟩
  · rcases insert_some hq with ⟨-, rfl⟩ | ⟨-, hq⟩
    · exact ⟨Nat.lt_succ_self s.idents, (Function.update_self s.idents _ vector).symm⟩
    · obtain ⟨hi, hv⟩ := h.queue key item hq
      exact ⟨Nat.lt_succ_of_lt hi, hv.trans (hold _ hi).symm⟩
  · rcases List.mem_append.mp hm with hm | hm
    · obtain ⟨hi, hv⟩ := h.log ident copies hm
      exact ⟨Nat.lt_succ_of_lt hi, fun g hg => (hv g hg).trans (hold _ hi).symm⟩
    · obtain ⟨rfl, rfl⟩ := CtrlRecord.sent.inj (List.mem_singleton.mp hm)
      refine ⟨Nat.lt_succ_self _, fun g hg => ?_⟩
      rw [Function.update_self]
      exact copies_vector s header g hg

theorem resend (h : VectorsFixed s vector) (hq : s.txedCtrQueue[csn]? = some item) :
    VectorsFixed (s.resend csn item) vector := by
  obtain ⟨hi, hv⟩ := h.queue csn item hq
  have hr : (s.renewItem item).mxControlHeader.owdVector = vector item.ident := by
    rw [← hv]
    simp only [renewItem]
    split_ifs <;> rfl
  refine ⟨fun key item' hq' => ?_, fun ident copies hm => ?_⟩
  · rcases insert_some hq' with ⟨-, rfl⟩ | ⟨-, hq'⟩
    · exact ⟨hi, hr⟩
    · exact h.queue key item' hq'
  · rcases List.mem_append.mp hm with hm | hm
    · exact h.log ident copies hm
    · obtain ⟨rfl, rfl⟩ := CtrlRecord.sent.inj (List.mem_singleton.mp hm)
      exact ⟨hi, fun g hg => (copies_vector _ _ g hg).trans hr⟩

end VectorsFixed

theorem vectorsFixed_keeps : Keeps anyNumber fun s => ∃ vector, VectorsFixed s vector := by
  have hnew : ∀ {s : Endpoint} (header : MxControlHeader), (∃ vector, VectorsFixed s vector) →
      anyNumber.new s → ∃ vector, VectorsFixed (s.sendNew header) vector := by
    rintro s header ⟨vector, h⟩ -
    have ht : VectorsFixed s.takeNumber vector := h.congr rfl rfl rfl
    exact ⟨_, ht.sendCtrlMsg _ _⟩
  refine ⟨?_, hnew, ?_, ?_, ?_, ?_⟩
  · rintro s s' hs ⟨vector, h⟩
    exact ⟨vector, h.congr hs.queue hs.idents hs.log⟩
  · rintro s header ⟨vector, h⟩ -
    exact ⟨_, h.sendCtrlMsg _ _⟩
  · rintro s csn ⟨vector, h⟩ - -
    exact ⟨vector, h.congr rfl rfl rfl⟩
  · rintro s csn item a ⟨vector, h⟩ - hq -
    have hf : VectorsFixed (s.fire csn) vector := h.congr rfl rfl rfl
    have hq' : (s.fire csn).txedCtrQueue[csn]? = some item := hq
    simp only [retxCtrlMsgExpires, hq']
    split_ifs
    · have hmark : VectorsFixed ((s.fire csn).markGivenUp item) vector :=
        (hf.append (.givenUp item.ident item.mxControlHeader item.mxControlHeader.connectionId)
          (by simp)).congr rfl rfl rfl
      simp only [giveUp]
      split_ifs
      · obtain ⟨vector', h'⟩ := Rule.newAll_keeps hnew ⟨vector, hmark⟩ (anyNumber_newAll _ _)
        exact ⟨vector', h'.erase csn⟩
      · exact ⟨vector, hmark.erase csn⟩
    · exact ⟨vector, ((hf.erase csn).append (.testFailed item.ident) (by simp)).congr
        rfl rfl rfl⟩
    · exact ⟨vector, hf.resend hq'⟩
  · rintro s csn key item sendTime ⟨vector, h⟩ -
    exact ⟨vector, ((h.erase key).append (.acknowledged item.ident sendTime) (by simp)).congr
      rfl rfl rfl⟩

theorem recorded_keeps (rec : CtrlRecord) : Keeps anyNumber fun s => rec ∈ s.log := by
  have hnew : ∀ {s : Endpoint} (header : MxControlHeader), rec ∈ s.log →
      anyNumber.new s → rec ∈ (s.sendNew header).log :=
    fun _ h _ => List.mem_append_left _ h
  refine ⟨?_, hnew, ?_, ?_, ?_, ?_⟩
  · exact fun hs h => hs.log.symm ▸ h
  · exact fun _ h _ => List.mem_append_left _ h
  · exact fun h _ _ => h
  · intro s csn item a h _ hq _
    have hq' : (s.fire csn).txedCtrQueue[csn]? = some item := hq
    simp only [retxCtrlMsgExpires, hq']
    split_ifs
    · have hmark : rec ∈ ((s.fire csn).markGivenUp item).log := List.mem_append_left _ h
      simp only [giveUp]
      split_ifs
      · exact Rule.newAll_keeps hnew hmark (anyNumber_newAll _ _)
      · exact hmark
    · exact List.mem_append_left _ h
    · exact List.mem_append_left _ h
  · exact fun h _ => List.mem_append_left _ h

end Endpoint
end NetGymSim.Gma

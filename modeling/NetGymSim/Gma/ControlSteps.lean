import NetGymSim.Gma.ControlQueue

/-!
# Steps of the control queue

Every event of an endpoint comes down to a few moves on the queue: a message with the
next number, a reverse TSU turned round, an expiry, an ACK. A rule says when a number may
be taken; what the moves keep under a rule, every event that meets the rule keeps.
-/

namespace NetGymSim.Gma
open NetGymSim.Lib
namespace Endpoint

section Entries
variable {ν : Type*} {t : Std.TreeMap ℕ ν} {k k' : ℕ} {v w : ν}

theorem insert_get : (t.insert k v)[k']? = if k = k' then some v else t[k']? := by
  simp only [Std.TreeMap.getElem?_insert, Std.compare_eq_iff_eq]

theorem erase_get : (t.erase k)[k']? = if k = k' then none else t[k']? := by
  simp only [Std.TreeMap.getElem?_erase, Std.compare_eq_iff_eq]

theorem insert_some (h : (t.insert k v)[k']? = some w) :
    k' = k ∧ w = v ∨ k' ≠ k ∧ t[k']? = some w := by
  rw [insert_get] at h
  split_ifs at h with hk
  · exact .inl ⟨hk.symm, (Option.some.inj h).symm⟩
  · exact .inr ⟨Ne.symm hk, h⟩

theorem erase_some (h : (t.erase k)[k']? = some w) : k' ≠ k ∧ t[k']? = some w := by
  rw [erase_get] at h
  split_ifs at h with hk
  exact ⟨Ne.symm hk, h⟩

end Entries

/-- When a number may be taken: the next one for a new message, a received one for a TSU
that is turned round, and the next one for a retransmission. -/
structure Rule where
  new : Endpoint → Prop
  turn : Endpoint → ℕ → Prop
  resend : Endpoint → Prop

namespace Rule
variable (r : Rule)

def newAll : Endpoint → List MxControlHeader → Prop
  | _, [] => True
  | s, h :: hs => r.new s ∧ newAll (s.sendNew h) hs

def expiry (s : Endpoint) (item : TexedCtrQueueItem) (a : Answers) : Prop :=
  if exhausted item then
    s.giveUpAsksTsu item a →
      r.newAll (s.markGivenUp item) ((s.markGivenUp item).tsuHeaders a.linkDownTsu)
  else ¬ isQosTest item → r.resend s

def linkMapTsu (s : Endpoint) (header : MxControlHeader) (a : Answers) : Prop :=
  s.asksTsu header a → r.newAll (s.updateLinkMap header)
    ((s.updateLinkMap header).tsuHeaders a.linkDownTsu)

def Allows (s : Endpoint) : Event → Prop
  | .probe probeFlag => r.newAll s (s.linkParamsMap.list.map (s.probeHeader probeFlag))
  | .qosTestingRequest _ _ _ _ | .qosViolation _ => r.new s
  | .tsu d => r.newAll s (s.tsuHeaders d)
  | .expire csn a => ∀ item ∈ s.txedCtrQueue[csn]?, r.expiry (s.fire csn) item a
  | .recv header a =>
      r.linkMapTsu s header a ∧
        (header.type = .tsu → (s.recvLinkMap header a).turnsRound header →
          r.turn ((s.recvLinkMap header a).respondAck header header.connectionId)
            header.sequenceNumber) ∧
        (header.type = .qosTestingRequest →
          r.new ((s.recvLinkMap header a).respondAck header header.connectionId))
  | .wait _ | .sendData | .linkDown _ _ | .linkUp _ _ | .testFailTimes _ => True

section Decidability
variable [∀ s, Decidable (r.new s)] [∀ s n, Decidable (r.turn s n)] [∀ s, Decidable (r.resend s)]

instance newAll.decidable : (s : Endpoint) → (hs : List MxControlHeader) →
    Decidable (r.newAll s hs)
  | _, [] => inferInstanceAs (Decidable True)
  | s, h :: hs =>
      have := newAll.decidable (s.sendNew h) hs
      inferInstanceAs (Decidable (r.new s ∧ r.newAll (s.sendNew h) hs))

instance expiry.decidable (s : Endpoint) (item : TexedCtrQueueItem) (a : Answers) :
    Decidable (r.expiry s item a) :=
  inferInstanceAs (Decidable (if exhausted item then _ → _ else _ → _))

instance linkMapTsu.decidable (s : Endpoint) (header : MxControlHeader) (a : Answers) :
    Decidable (r.linkMapTsu s header a) :=
  inferInstanceAs (Decidable (_ → _))

instance Allows.decidable (s : Endpoint) : (e : Event) → Decidable (r.Allows s e)
  | .probe probeFlag =>
      inferInstanceAs (Decidable (r.newAll s (s.linkParamsMap.list.map (s.probeHeader probeFlag))))
  | .qosTestingRequest _ _ _ _ | .qosViolation _ => inferInstanceAs (Decidable (r.new s))
  | .tsu d => inferInstanceAs (Decidable (r.newAll s (s.tsuHeaders d)))
  | .expire csn a =>
      inferInstanceAs (Decidable (∀ item ∈ s.txedCtrQueue[csn]?, r.expiry (s.fire csn) item a))
  | .recv header a =>
      inferInstanceAs (Decidable (r.linkMapTsu s header a ∧
        (header.type = .tsu → (s.recvLinkMap header a).turnsRound header →
          r.turn ((s.recvLinkMap header a).respondAck header header.connectionId)
            header.sequenceNumber) ∧
        (header.type = .qosTestingRequest →
          r.new ((s.recvLinkMap header a).respondAck header header.connectionId))))
  | .wait _ | .sendData | .linkDown _ _ | .linkUp _ _ | .testFailTimes _ =>
      inferInstanceAs (Decidable True)

end Decidability
end Rule

def anyNumber : Rule := ⟨fun _ => True, fun _ _ => True, fun _ => True⟩

structure SameQueue (s s' : Endpoint) : Prop where
  queue : s'.txedCtrQueue = s.txedCtrQueue
  number : s'.mxCtrSeqNumber = s.mxCtrSeqNumber
  expiries : s'.expiries = s.expiries
  idents : s'.idents = s.idents
  log : s'.log = s.log
  asserts : s'.failedAsserts = s.failedAsserts
  links : s'.linkParamsMap = s.linkParamsMap

theorem ackLookup_some {s : Endpoint} {csn key sendTime : ℕ} {item : TexedCtrQueueItem}
    (h : s.ackLookup csn = some (key, item, sendTime)) : s.txedCtrQueue[key]? = some item := by
  unfold ackLookup at h
  cases hq : s.txedCtrQueue[csn]? with
  | some item' =>
    simp only [hq, Option.some.injEq, Prod.mk.injEq] at h
    obtain ⟨rfl, rfl, -⟩ := h
    exact hq
  | none =>
    simp only [hq, Option.map_eq_some_iff, Prod.mk.injEq] at h
    obtain ⟨e, he, rfl, rfl, -⟩ := h
    exact Std.TreeMap.mem_toList_iff_getElem?_eq_some.mp (List.mem_of_find?_eq_some he)

structure Keeps (r : Rule) (P : Endpoint → Prop) : Prop where
  same : ∀ {s s'}, SameQueue s s' → P s → P s'
  new : ∀ {s} (h : MxControlHeader), P s → r.new s → P (s.sendNew h)
  turn : ∀ {s} (h : MxControlHeader), P s → r.turn s h.sequenceNumber → P (s.rcvReverseTsu h)
  idle : ∀ {s csn}, P s → csn ∈ s.expiries → s.txedCtrQueue[csn]? = none → P (s.fire csn)
  expired : ∀ {s csn item} (a : Answers), P s → csn ∈ s.expiries →
    s.txedCtrQueue[csn]? = some item → r.expiry (s.fire csn) item a →
    P ((s.fire csn).retxCtrlMsgExpires csn a)
  acknowledge : ∀ {s csn key item} {sendTime : ℕ}, P s →
    s.ackLookup csn = some (key, item, sendTime) → P (s.acknowledge key item sendTime)

theorem Rule.newAll_keeps {r : Rule} {P : Endpoint → Prop}
    (hnew : ∀ {s} (h : MxControlHeader), P s → r.new s → P (s.sendNew h)) {s : Endpoint}
    {hs : List MxControlHeader} (hP : P s) (h : r.newAll s hs) : P (s.sendAll hs) := by
  induction hs generalizing s with
  | nil => exact hP
  | cons header hs ih => exact ih (hnew header hP h.1) h.2

namespace Keeps
variable {r : Rule} {P : Endpoint → Prop} {s : Endpoint}

theorem newAll (hk : Keeps r P) {hs : List MxControlHeader} (hP : P s) (h : r.newAll s hs) :
    P (s.sendAll hs) :=
  Rule.newAll_keeps hk.new hP h

theorem recvLinkMap (hk : Keeps r P) {header : MxControlHeader} {a : Answers} (hP : P s)
    (h : r.linkMapTsu s header a) : P (s.recvLinkMap header a) := by
  have hu : P (s.updateLinkMap header) :=
    hk.same (show SameQueue s _ from ⟨rfl, rfl, rfl, rfl, rfl, rfl, rfl⟩) hP
  unfold Endpoint.recvLinkMap
  split_ifs with hasks
  · exact hk.newAll hu (h hasks)
  · exact hu

theorem respondAck (hk : Keeps r P) (header : MxControlHeader) (cid : Cid) (hP : P s) :
    P (s.respondAck header cid) :=
  hk.same (show SameQueue s _ from ⟨rfl, rfl, rfl, rfl, rfl, rfl, rfl⟩) hP

theorem acceptTsu (hk : Keeps r P) (header : MxControlHeader) (hP : P s) :
    P (s.acceptTsu header) := by
  unfold Endpoint.acceptTsu
  split_ifs <;> exact hk.same (show SameQueue s _ from ⟨rfl, rfl, rfl, rfl, rfl, rfl, rfl⟩) hP

theorem recvAck (hk : Keeps r P) (header : MxControlHeader) (hP : P s) :
    P (s.recvAck header) := by
  unfold Endpoint.recvAck
  cases hl : s.ackLookup header.sequenceNumber with
  | none => exact hP
  | some e =>
    obtain ⟨key, item, sendTime⟩ := e
    have hack := hk.acknowledge hP hl
    dsimp only
    split_ifs
    · exact hk.same (show SameQueue (s.acknowledge key item sendTime) _ from
        ⟨rfl, rfl, rfl, rfl, rfl, rfl, rfl⟩) hack
    · exact hk.same (show SameQueue (s.acknowledge key item sendTime) _ from
        ⟨rfl, rfl, rfl, rfl, rfl, rfl, rfl⟩) hack

theorem recvCtrlMsg (hk : Keeps r P) {header : MxControlHeader} {a : Answers} (hP : P s)
    (h : r.Allows s (.recv header a)) : P (s.recvCtrlMsg header a) := by
  obtain ⟨hmap, hturn, hqos⟩ := h
  have hm := hk.recvLinkMap hP hmap
  unfold Endpoint.recvCtrlMsg
  cases ht : header.type with
  | probe => exact hk.respondAck header _ hm
  | tsu =>
    simp only [Endpoint.recvTsu]
    split_ifs with hround
    · exact hk.turn header (hk.respondAck header _ hm) (hturn ht hround)
    · exact hk.acceptTsu header hm
  | ack => exact hk.recvAck header hm
  | tsa => exact hk.recvAck header hm
  | qosTestingRequest => exact hk.new _ (hk.respondAck header _ hm) (hqos ht)
  | qosTestingStartNotify =>
    dsimp only
    split_ifs
    · exact hk.respondAck header _ hm
    · exact hm
  | qosViolation => exact hk.respondAck header _ hm

theorem step (hk : Keeps r P) (e : Event) (hP : P s) (he : s.enabled e) (h : r.Allows s e) :
    P (s.next e) := by
  cases e with
  | wait ms => exact hk.same (show SameQueue s _ from ⟨rfl, rfl, rfl, rfl, rfl, rfl, rfl⟩) hP
  | sendData => exact hk.same (show SameQueue s _ from ⟨rfl, rfl, rfl, rfl, rfl, rfl, rfl⟩) hP
  | probe probeFlag => exact hk.newAll hP h
  | qosTestingRequest cid duration direction channelId => exact hk.new _ hP h
  | qosViolation direction => exact hk.new _ hP h
  | tsu d => exact hk.newAll hP h
  | expire csn a =>
    cases hq : s.txedCtrQueue[csn]? with
    | none =>
      have hid : (s.fire csn).retxCtrlMsgExpires csn a = s.fire csn := by
        have hq' : (s.fire csn).txedCtrQueue[csn]? = none := hq
        simp only [retxCtrlMsgExpires, hq']
      simp only [next, hid]
      exact hk.idle hP he hq
    | some item => exact hk.expired a hP he hq (h item hq)
  | recv header a => exact hk.recvCtrlMsg hP h
  | linkDown cause cid =>
    exact hk.same (show SameQueue s _ from ⟨rfl, rfl, rfl, rfl, rfl, rfl, rfl⟩) hP
  | linkUp cause cid =>
    exact hk.same (show SameQueue s _ from ⟨rfl, rfl, rfl, rfl, rfl, rfl, rfl⟩) hP
  | testFailTimes cids =>
    exact hk.same (show SameQueue s _ from ⟨rfl, rfl, rfl, rfl, rfl, rfl, rfl⟩) hP

theorem run (hk : Keeps r P) {es : List Event} {s₀ : Endpoint} (init : P s₀)
    (h : (machine.restrict r.Allows).Reaches s₀ es s) : P s := by
  refine Machine.Reaches.invariant (P := P) init ?_ h
  intro t e hP ⟨he, hr⟩
  exact hk.step e hP he hr

end Keeps

section AnyNumber
variable {s : Endpoint}

theorem anyNumber_newAll (s : Endpoint) (hs : List MxControlHeader) : anyNumber.newAll s hs := by
  induction hs generalizing s with
  | nil => trivial
  | cons h hs ih => exact ⟨trivial, ih _⟩

theorem anyNumber_allows (s : Endpoint) (e : Event) : anyNumber.Allows s e := by
  cases e with
  | probe probeFlag => exact anyNumber_newAll _ _
  | tsu d => exact anyNumber_newAll _ _
  | expire csn a =>
    intro item _
    unfold Rule.expiry
    split_ifs
    · exact fun _ => anyNumber_newAll _ _
    · exact fun _ => trivial
  | recv header a => exact ⟨fun _ => anyNumber_newAll _ _, fun _ _ => trivial, fun _ => trivial⟩
  | _ => trivial

theorem Keeps.run_any {P : Endpoint → Prop} (hk : Keeps anyNumber P) {es : List Event}
    {s₀ : Endpoint} (init : P s₀) (h : machine.Reaches s₀ es s) : P s := by
  refine Machine.Reaches.invariant (P := P) init ?_ h
  intro t e hP he
  exact hk.step e hP he (anyNumber_allows t e)

end AnyNumber
end Endpoint
end NetGymSim.Gma

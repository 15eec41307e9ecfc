import NetGymSim.Gma.ControlRuns
import NetGymSim.Gma.TsuSteps

/-!
# The measurement loop

`MeasureIntervalEnd` stops the measurement when its decision is an update, and only a TSA that is
handed over starts it again. Meanwhile a TSU waits that has numbers ahead of `m_maxTsaSn` only, so
that any TSA for it is handed over. It is lost when it is given up without a link failure TSU in
its place, when it gets a number that `CsnDiff` takes for an old one, or when a plain ACK takes it
off the queue.
-/

namespace NetGymSim.Gma
open NetGymSim.Lib
namespace Endpoint

def Restarts (s : Endpoint) (key : ℕ) (item : TexedCtrQueueItem) : Prop :=
  item.mxControlHeader.type = .tsu ∧ 0 < csnDiff key s.maxTsaSn ∧
    ∀ csn ∈ item.csnToTxtimeMap.keys, 0 < csnDiff csn s.maxTsaSn

instance Restarts.decidable (s : Endpoint) (key : ℕ) (item : TexedCtrQueueItem) :
    Decidable (s.Restarts key item) :=
  inferInstanceAs (Decidable (_ ∧ _ ∧ _))

def WaitsBeside (s : Endpoint) (csn : ℕ) : Prop :=
  ∃ e ∈ s.txedCtrQueue.toList, e.1 ≠ csn ∧ s.Restarts e.1 e.2

instance WaitsBeside.decidable (s : Endpoint) (csn : ℕ) : Decidable (s.WaitsBeside csn) :=
  inferInstanceAs (Decidable (∃ e ∈ s.txedCtrQueue.toList, _))

def Waits (s : Endpoint) : Prop := ∃ e ∈ s.txedCtrQueue.toList, s.Restarts e.1 e.2

instance Waits.decidable (s : Endpoint) : Decidable s.Waits :=
  inferInstanceAs (Decidable (∃ e ∈ s.txedCtrQueue.toList, _))

def violations (s : Endpoint) : ℕ :=
  if s.config.serverRoleEnabled then s.linkMap.linkState.cidToLastTestFailTime.card else 0

def tsuNumber (s : Endpoint) : ℕ := (fun n => (n + 1) % 65536)^[s.violations] s.mxCtrSeqNumber

def clearKeys : Rule where
  new s := s.txedCtrQueue.contains s.mxCtrSeqNumber = false
  turn _ _ := True
  resend _ := True

instance clearKeys.decidableNew (s : Endpoint) : Decidable (clearKeys.new s) :=
  inferInstanceAs (Decidable (_ = false))

instance clearKeys.decidableTurn (s : Endpoint) (n : ℕ) : Decidable (clearKeys.turn s n) :=
  inferInstanceAs (Decidable True)

instance clearKeys.decidableResend (s : Endpoint) : Decidable (clearKeys.resend s) :=
  inferInstanceAs (Decidable True)

def sparesExpired (s : Endpoint) (csn : ℕ) (item : TexedCtrQueueItem) (a : Answers) : Prop :=
  s.Restarts csn item → ¬ s.WaitsBeside csn →
    if exhausted item then s.giveUpAsksTsu item a ∧
      0 < csnDiff (s.markGivenUp item).tsuNumber s.maxTsaSn
    else 0 < csnDiff s.mxCtrSeqNumber s.maxTsaSn

instance sparesExpired.decidable (s : Endpoint) (csn : ℕ) (item : TexedCtrQueueItem)
    (a : Answers) : Decidable (s.sparesExpired csn item a) :=
  inferInstanceAs (Decidable (s.Restarts csn item → ¬ s.WaitsBeside csn →
    if exhausted item then s.giveUpAsksTsu item a ∧
      0 < csnDiff (s.markGivenUp item).tsuNumber s.maxTsaSn
    else 0 < csnDiff s.mxCtrSeqNumber s.maxTsaSn))

def sparesAcked (s : Endpoint) (header : MxControlHeader) : Prop :=
  header.type = .ack → ∀ e ∈ s.ackLookup header.sequenceNumber,
    s.Restarts e.1 e.2.1 → s.WaitsBeside e.1

instance sparesAcked.decidable (s : Endpoint) (header : MxControlHeader) :
    Decidable (s.sparesAcked header) :=
  inferInstanceAs (Decidable (_ → ∀ e ∈ s.ackLookup header.sequenceNumber,
    s.Restarts e.1 e.2.1 → s.WaitsBeside e.1))

def Spares (s : Endpoint) : Event → Prop
  | .expire csn a => ∀ item ∈ s.txedCtrQueue[csn]?, s.sparesExpired csn item a
  | .recv header _ => s.sparesAcked header
  | _ => True

instance Spares.decidable (s : Endpoint) : (e : Event) → Decidable (s.Spares e)
  | .expire csn a =>
      inferInstanceAs (Decidable (∀ item ∈ s.txedCtrQueue[csn]?, s.sparesExpired csn item a))
  | .recv header _ => inferInstanceAs (Decidable (s.sparesAcked header))
  | .wait _ | .sendData | .probe _ | .qosTestingRequest _ _ _ _ | .qosViolation _ | .tsu _
  | .linkDown _ _ | .linkUp _ _ | .testFailTimes _ => inferInstanceAs (Decidable True)

section Waiting
variable {s s' s'' : Endpoint} {key csn : ℕ} {item : TexedCtrQueueItem}

theorem waits_iff : s.Waits ↔
    ∃ key item, s.txedCtrQueue[key]? = some item ∧ s.Restarts key item := by
  constructor
  · rintro ⟨e, he, hr⟩
    exact ⟨e.1, e.2, Std.TreeMap.mem_toList_iff_getElem?_eq_some.mp he, hr⟩
  · rintro ⟨key, item, hq, hr⟩
    exact ⟨(key, item), Std.TreeMap.mem_toList_iff_getElem?_eq_some.mpr hq, hr⟩

theorem waitsBeside_iff : s.WaitsBeside csn ↔
    ∃ key item, key ≠ csn ∧ s.txedCtrQueue[key]? = some item ∧ s.Restarts key item := by
  constructor
  · rintro ⟨e, he, hne, hr⟩
    exact ⟨e.1, e.2, hne, Std.TreeMap.mem_toList_iff_getElem?_eq_some.mp he, hr⟩
  · rintro ⟨key, item, hne, hq, hr⟩
    exact ⟨(key, item), Std.TreeMap.mem_toList_iff_getElem?_eq_some.mpr hq, hne, hr⟩

structure Undisturbed (s s' : Endpoint) : Prop where
  queue : ∀ (key : ℕ) (item : TexedCtrQueueItem), s.txedCtrQueue[key]? = some item →
    s'.txedCtrQueue[key]? = some item
  maxTsaSn : s'.maxTsaSn = s.maxTsaSn

theorem Undisturbed.of_eq (hq : s'.txedCtrQueue = s.txedCtrQueue)
    (hm : s'.maxTsaSn = s.maxTsaSn) : Undisturbed s s' :=
  ⟨fun _ _ h => hq ▸ h, hm⟩

theorem Undisturbed.trans (h : Undisturbed s s') (h' : Undisturbed s' s'') :
    Undisturbed s s'' :=
  ⟨fun key item hq => h'.queue key item (h.queue key item hq), h'.maxTsaSn.trans h.maxTsaSn⟩

theorem Restarts.congr (h : s.Restarts key item) (hm : s'.maxTsaSn = s.maxTsaSn) :
    s'.Restarts key item := by
  unfold Restarts
  rwa [hm]

theorem Undisturbed.waits (h : Undisturbed s s') (hw : s.Waits) : s'.Waits := by
  obtain ⟨key, item, hq, hr⟩ := waits_iff.mp hw
  exact waits_iff.mpr ⟨key, item, h.queue key item hq, hr.congr h.maxTsaSn⟩

theorem sendNew_undisturbed (h : clearKeys.new s) (header : MxControlHeader) :
    Undisturbed s (s.sendNew header) := by
  refine ⟨fun key item hq => ?_, rfl⟩
  have hne : key ≠ s.mxCtrSeqNumber := by
    rintro rfl
    have hnone : s.txedCtrQueue.contains s.mxCtrSeqNumber = false := h
    rw [Std.TreeMap.contains_eq_isSome_getElem?, hq] at hnone
    cases hnone
  change (s.txedCtrQueue.insert s.mxCtrSeqNumber _)[key]? = some item
  rw [insert_get, if_neg (Ne.symm hne), hq]

theorem sendAll_undisturbed {headers : List MxControlHeader} (h : clearKeys.newAll s headers) :
    Undisturbed s (s.sendAll headers) := by
  induction headers generalizing s with
  | nil => exact .of_eq rfl rfl
  | cons header headers ih => exact (sendNew_undisturbed h.1 header).trans (ih h.2)

theorem newAll_append {r : Rule} {headers : List MxControlHeader} {header : MxControlHeader}
    (h : r.newAll s (headers ++ [header])) : r.newAll s headers ∧ r.new (s.sendAll headers) := by
  induction headers generalizing s with
  | nil => exact ⟨trivial, h.1⟩
  | cons first headers ih =>
    obtain ⟨hrest, hlast⟩ := ih h.2
    exact ⟨⟨h.1, hrest⟩, hlast⟩

theorem sendAll_number (s : Endpoint) (headers : List MxControlHeader) :
    (s.sendAll headers).mxCtrSeqNumber =
        (fun n => (n + 1) % 65536)^[headers.length] s.mxCtrSeqNumber ∧
      (s.sendAll headers).maxTsaSn = s.maxTsaSn := by
  induction headers generalizing s with
  | nil => exact ⟨rfl, rfl⟩
  | cons header headers ih => exact ih (s.sendNew header)

theorem tsuHeaders_eq (s : Endpoint) (d : SplittingDecision) :
    ∃ before : List MxControlHeader, s.tsuHeaders d = before ++ [s.tsuHeader d] ∧
      before.length = s.violations := by
  refine ⟨_, rfl, ?_⟩
  unfold violations
  split_ifs
  · exact List.length_replicate
  · rfl

theorem sendTsu_waits (d : SplittingDecision) (h : 0 < csnDiff s.tsuNumber s.maxTsaSn) :
    ∃ item, (s.sendTsu d).txedCtrQueue[s.tsuNumber]? = some item ∧
      (s.sendTsu d).Restarts s.tsuNumber item := by
  obtain ⟨before, heq, hlen⟩ := tsuHeaders_eq s d
  obtain ⟨hkey, hmax⟩ := sendAll_number s before
  rw [hlen] at hkey
  have hkey : (s.sendAll before).mxCtrSeqNumber = s.tsuNumber := hkey
  have hsend : s.sendTsu d = (s.sendAll before).sendNew (s.tsuHeader d) := by
    unfold sendTsu
    rw [heq, sendAll, List.foldl_append]
    rfl
  refine ⟨⟨(s.tsuHeader d).setSequenceNumber s.tsuNumber,
    (∅ : Std.TreeMap ℕ ℕ).insert s.tsuNumber (s.sendAll before).now,
    (s.sendAll before).idents, false⟩, ?_, ?_⟩
  · rw [hsend]
    change ((s.sendAll before).txedCtrQueue.insert (s.sendAll before).mxCtrSeqNumber
      ⟨(s.tsuHeader d).setSequenceNumber (s.sendAll before).mxCtrSeqNumber,
        (∅ : Std.TreeMap ℕ ℕ).insert (s.sendAll before).mxCtrSeqNumber _, _, _⟩)[_]? = _
    rw [hkey, insert_get, if_pos rfl]
    rfl
  · have hmax' : (s.sendTsu d).maxTsaSn = s.maxTsaSn := by
      rw [hsend]
      exact hmax
    refine ⟨rfl, by rwa [hmax'], ?_⟩
    intro csn hcsn
    rw [hmax', mem_times_singleton.mp (Std.TreeMap.mem_keys.mp hcsn)]
    exact h

theorem tsuNumber_new {d : SplittingDecision} (h : clearKeys.newAll s (s.tsuHeaders d))
    (hq : s.txedCtrQueue[csn]? = some item) : s.tsuNumber ≠ csn := by
  obtain ⟨before, heq, hlen⟩ := tsuHeaders_eq s d
  rw [heq] at h
  obtain ⟨hbefore, hnew⟩ := newAll_append h
  have hkey := (sendAll_number s before).1
  rw [hlen] at hkey
  have hkept := (sendAll_undisturbed hbefore).queue csn item hq
  rintro rfl
  have hnone : (s.sendAll before).txedCtrQueue.contains (s.sendAll before).mxCtrSeqNumber =
      false := hnew
  rw [hkey, Std.TreeMap.contains_eq_isSome_getElem?] at hnone
  change (s.sendAll before).txedCtrQueue[s.tsuNumber]?.isSome = false at hnone
  rw [hkept] at hnone
  cases hnone

theorem waits_cases (hw : s.Waits) (csn : ℕ) : s.WaitsBeside csn ∨
    ¬ s.WaitsBeside csn ∧ ∃ item, s.txedCtrQueue[csn]? = some item ∧ s.Restarts csn item := by
  by_cases hbeside : s.WaitsBeside csn
  · exact .inl hbeside
  · obtain ⟨key, item, hq, hr⟩ := waits_iff.mp hw
    refine .inr ⟨hbeside, ?_⟩
    by_cases hkey : key = csn
    · exact ⟨item, hkey ▸ hq, hkey ▸ hr⟩
    · exact absurd (waitsBeside_iff.mpr ⟨key, item, hkey, hq, hr⟩) hbeside

theorem WaitsBeside.waits (h : s.WaitsBeside csn)
    (hq : ∀ (key : ℕ) (item : TexedCtrQueueItem), key ≠ csn → s.txedCtrQueue[key]? = some item →
      s'.txedCtrQueue[key]? = some item) (hm : s'.maxTsaSn = s.maxTsaSn) : s'.Waits := by
  obtain ⟨key, item, hne, hkey, hr⟩ := waitsBeside_iff.mp h
  exact waits_iff.mpr ⟨key, item, hq key item hne hkey, hr.congr hm⟩

theorem erase_other (h : Undisturbed s s') {key : ℕ} (hne : key ≠ csn)
    (hq : s.txedCtrQueue[key]? = some item) :
    (s'.txedCtrQueue.erase csn)[key]? = some item := by
  rw [erase_get, if_neg (Ne.symm hne)]
  exact h.queue key item hq

theorem giveUp_waits {a : Answers} (hw : s.Waits) (hq : s.txedCtrQueue[csn]? = some item)
    (hx : exhausted item) (hr : clearKeys.expiry s item a) (hs : s.sparesExpired csn item a) :
    (s.giveUp csn item a).Waits := by
  have hmark : Undisturbed s (s.markGivenUp item) := .of_eq rfl rfl
  rw [Rule.expiry, if_pos hx] at hr
  unfold sparesExpired at hs
  rw [if_pos hx] at hs
  unfold giveUp
  dsimp only
  by_cases hasks : s.giveUpAsksTsu item a
  · rw [if_pos hasks]
    have hsent : Undisturbed s ((s.markGivenUp item).sendTsu a.linkDownTsu) :=
      hmark.trans (sendAll_undisturbed (hr hasks))
    cases waits_cases hw csn with
    | inl hbeside =>
      exact hbeside.waits (fun _ _ hne hkey => erase_other hsent hne hkey) hsent.maxTsaSn
    | inr honly =>
      obtain ⟨hbeside, item', hq', hrestarts⟩ := honly
      rw [hq] at hq'
      cases hq'
      obtain ⟨tsu, htsu, hnew⟩ := sendTsu_waits (s := s.markGivenUp item) a.linkDownTsu
        (hs hrestarts hbeside).2
      refine waits_iff.mpr ⟨_, tsu, ?_, hnew.congr rfl⟩
      change (((s.markGivenUp item).sendTsu a.linkDownTsu).txedCtrQueue.erase csn)[_]? = some tsu
      have hne : (s.markGivenUp item).tsuNumber ≠ csn := tsuNumber_new (hr hasks) hq
      rw [erase_get, if_neg (Ne.symm hne)]
      exact htsu
  · rw [if_neg hasks]
    cases waits_cases hw csn with
    | inl hbeside =>
      exact hbeside.waits (fun _ _ hne hkey => erase_other hmark hne hkey) rfl
    | inr honly =>
      obtain ⟨hbeside, item', hq', hrestarts⟩ := honly
      rw [hq] at hq'
      cases hq'
      exact absurd (hs hrestarts hbeside).1 hasks

theorem failTest_waits (hw : s.Waits) (hq : s.txedCtrQueue[csn]? = some item)
    (ht : isQosTest item) : (s.failTest csn item).Waits := by
  cases waits_cases hw csn with
  | inl hbeside =>
    have hself : Undisturbed s s := .of_eq rfl rfl
    exact hbeside.waits (fun _ _ hne hkey => erase_other hself hne hkey) rfl
  | inr honly =>
    obtain ⟨_, item', hq', hrestarts⟩ := honly
    rw [hq] at hq'
    cases hq'
    have htype := hrestarts.1
    cases ht with
    | inl h => rw [h] at htype; cases htype
    | inr h => rw [h] at htype; cases htype

theorem resend_waits {a : Answers} (hw : s.Waits) (hq : s.txedCtrQueue[csn]? = some item)
    (hx : ¬ exhausted item) (hs : s.sparesExpired csn item a) : (s.resend csn item).Waits := by
  have hget : ∀ key, (s.resend csn item).txedCtrQueue[key]? =
      if csn = key then some (s.renewItem item) else s.txedCtrQueue[key]? := fun _ => insert_get
  unfold sparesExpired at hs
  rw [if_neg hx] at hs
  cases waits_cases hw csn with
  | inl hbeside =>
    refine hbeside.waits (fun key other hne hkey => ?_) rfl
    rw [hget, if_neg (Ne.symm hne)]
    exact hkey
  | inr honly =>
    obtain ⟨hbeside, item', hq', hrestarts⟩ := honly
    rw [hq] at hq'
    cases hq'
    refine waits_iff.mpr ⟨csn, s.renewItem item, by rw [hget, if_pos rfl], ?_⟩
    refine ⟨(Lives.renewItem_type s item).trans hrestarts.1, hrestarts.2.1, ?_⟩
    intro n hn
    have hmem : n ∈ item.csnToTxtimeMap.insert s.mxCtrSeqNumber s.now :=
      Std.TreeMap.mem_keys.mp hn
    cases mem_times_insert.mp hmem with
    | inl hnew =>
      rw [hnew]
      exact hs hrestarts hbeside
    | inr hold => exact hrestarts.2.2 n (Std.TreeMap.mem_keys.mpr hold)

theorem expire_waits {a : Answers} (hw : s.Waits) (hr : clearKeys.Allows s (.expire csn a))
    (hs : s.Spares (.expire csn a)) : (s.next (.expire csn a)).Waits := by
  have hfire : (s.fire csn).Waits := (Undisturbed.of_eq (s := s) rfl rfl).waits hw
  change ((s.fire csn).retxCtrlMsgExpires csn a).Waits
  unfold retxCtrlMsgExpires
  cases hq : (s.fire csn).txedCtrQueue[csn]? with
  | none => exact hfire
  | some item =>
    have hexpiry : clearKeys.expiry (s.fire csn) item a := hr item hq
    have hspares : (s.fire csn).sparesExpired csn item a := hs item hq
    dsimp only
    by_cases hx : exhausted item
    · rw [if_pos hx]
      exact giveUp_waits hfire hq hx hexpiry hspares
    · rw [if_neg hx]
      by_cases ht : isQosTest item
      · rw [if_pos ht]
        exact failTest_waits hfire hq ht
      · rw [if_neg ht]
        exact resend_waits hfire hq hx hspares

end Waiting

section Receiving
variable {s : Endpoint} {csn : ℕ} {header : MxControlHeader}

theorem recvLinkMap_undisturbed {a : Answers} (h : clearKeys.linkMapTsu s header a) :
    Undisturbed s (s.recvLinkMap header a) := by
  have hu : Undisturbed s (s.updateLinkMap header) := .of_eq rfl rfl
  unfold recvLinkMap
  by_cases hasks : s.asksTsu header a
  · rw [if_pos hasks]
    exact hu.trans (sendAll_undisturbed (h hasks))
  · rw [if_neg hasks]
    exact hu

theorem acceptTsu_undisturbed (s : Endpoint) (header : MxControlHeader) :
    Undisturbed s (s.acceptTsu header) := by
  unfold acceptTsu
  dsimp only
  split_ifs
  · exact .of_eq rfl rfl
  · exact .of_eq rfl rfl

theorem recvAck_eq (ht : header.type = .ack ∨ header.type = .tsa) (a : Answers) :
    s.next (.recv header a) = (s.updateLinkMap header).recvAck header := by
  have hasks : ¬ s.asksTsu header a := by
    rintro ⟨⟨h | h, -⟩, -⟩
    · rcases ht with ht | ht <;> rw [ht] at h <;> cases h
    · rcases ht with ht | ht <;> rw [ht] at h <;> cases h
  change s.recvCtrlMsg header a = _
  unfold recvCtrlMsg
  rw [recvLinkMap, if_neg hasks]
  rcases ht with ht | ht <;> rw [ht]

theorem ackLookup_number {key sendTime : ℕ} {item : TexedCtrQueueItem}
    (h : s.ackLookup csn = some (key, item, sendTime)) :
    key = csn ∨ csn ∈ item.csnToTxtimeMap.keys := by
  unfold ackLookup at h
  cases hq : s.txedCtrQueue[csn]? with
  | some item' =>
    rw [hq] at h
    cases h
    exact .inl rfl
  | none =>
    rw [hq] at h
    obtain ⟨e, he, heq⟩ := Option.map_eq_some_iff.mp h
    have hcontains : e.2.csnToTxtimeMap.contains csn = true := by
      simpa using List.find?_some he
    cases heq
    exact .inr (Std.TreeMap.mem_keys.mpr (Std.TreeMap.contains_iff_mem.mp hcontains))

theorem ackLookup_isSome {key : ℕ} {item : TexedCtrQueueItem}
    (hq : s.txedCtrQueue[key]? = some item) (hcsn : csn ∈ item.csnToTxtimeMap) :
    (s.ackLookup csn).isSome := by
  unfold ackLookup
  cases s.txedCtrQueue[csn]? with
  | some item' => rfl
  | none =>
    dsimp only
    rw [Option.isSome_map, List.find?_isSome]
    exact ⟨(key, item), Std.TreeMap.mem_toList_iff_getElem?_eq_some.mpr hq,
      Std.TreeMap.contains_iff_mem.mpr hcsn⟩

theorem recvAck_waits (hrx : s.config.rxMode = true) (hw : s.Waits)
    (ht : header.type = .ack ∨ header.type = .tsa) (hs : s.sparesAcked header) :
    s.handedOver.length < (s.recvAck header).handedOver.length ∨ (s.recvAck header).Waits := by
  unfold recvAck
  cases hl : s.ackLookup header.sequenceNumber with
  | none => exact .inr hw
  | some e =>
    obtain ⟨key, item, sendTime⟩ := e
    dsimp only
    by_cases hnew : header.type = .tsa ∧ (s.acknowledge key item sendTime).config.rxMode ∧
        0 < csnDiff header.sequenceNumber (s.acknowledge key item sendTime).maxTsaSn
    · rw [if_pos hnew]
      refine .inl ?_
      change s.handedOver.length < (s.handedOver ++ [header]).length
      rw [List.length_append, List.length_singleton]
      omega
    · rw [if_neg hnew]
      have hbeside : s.WaitsBeside key := by
        cases waits_cases hw key with
        | inl hbeside => exact hbeside
        | inr honly =>
          obtain ⟨_, item', hq', hrestarts⟩ := honly
          rw [ackLookup_some hl] at hq'
          cases hq'
          cases ht with
          | inl hack => exact hs hack _ hl hrestarts
          | inr htsa =>
            -- a TSA for this TSU would have been handed over
            have hdiff : 0 < csnDiff header.sequenceNumber s.maxTsaSn := by
              cases ackLookup_number hl with
              | inl hkey => exact hkey ▸ hrestarts.2.1
              | inr hmem => exact hrestarts.2.2 _ hmem
            exact absurd ⟨htsa, hrx, hdiff⟩ hnew
      have hself : Undisturbed s s := .of_eq rfl rfl
      exact .inr (hbeside.waits (fun _ _ hne hkey => erase_other hself hne hkey) rfl)

theorem recv_waits {a : Answers} (hrx : s.config.rxMode = true)
    (hqos : s.config.qosSteerEnabled = false) (hw : s.Waits)
    (hr : clearKeys.Allows s (.recv header a)) (hs : s.sparesAcked header) :
    s.handedOver.length < (s.next (.recv header a)).handedOver.length ∨
      (s.next (.recv header a)).Waits := by
  have hm := recvLinkMap_undisturbed hr.1
  have hrest : ∀ t : Endpoint, Undisturbed (s.recvLinkMap header a) t → t.Waits :=
    fun t ht => (hm.trans ht).waits hw
  have hanswer : header.type = .ack ∨ header.type = .tsa →
      s.handedOver.length < (s.next (.recv header a)).handedOver.length ∨
        (s.next (.recv header a)).Waits := by
    intro ht
    rw [recvAck_eq ht]
    exact recvAck_waits (s := s.updateLinkMap header) hrx
      ((Undisturbed.of_eq (s := s) rfl rfl).waits hw) ht hs
  cases ht : header.type with
  | ack => exact hanswer (.inl ht)
  | tsa => exact hanswer (.inr ht)
  | probe =>
    refine .inr ?_
    simp only [next, recvCtrlMsg, ht]
    exact hrest _ (.of_eq rfl rfl)
  | tsu =>
    have hround : ¬ (s.recvLinkMap header a).turnsRound header := by
      rintro ⟨_, hsteer, _⟩
      rw [(recvLinkMap_same s header a).1.config, hqos] at hsteer
      cases hsteer
    refine .inr ?_
    rw [recv_tsu_eq ht, recvTsu, if_neg hround]
    exact hrest _ (acceptTsu_undisturbed _ _)
  | qosTestingRequest =>
    refine .inr ?_
    simp only [next, recvCtrlMsg, ht]
    have hreply : Undisturbed (s.recvLinkMap header a)
        ((s.recvLinkMap header a).respondAck header header.connectionId) := .of_eq rfl rfl
    exact hrest _ (hreply.trans (sendNew_undisturbed (hr.2.2 ht) _))
  | qosTestingStartNotify =>
    refine .inr ?_
    simp only [next, recvCtrlMsg, ht]
    split_ifs
    · exact hrest _ (.of_eq rfl rfl)
    · exact hrest _ (.of_eq rfl rfl)
  | qosViolation =>
    refine .inr ?_
    simp only [next, recvCtrlMsg, ht]
    exact hrest _ (.of_eq rfl rfl)

theorem next_waits {e : Event} (hrx : s.config.rxMode = true)
    (hqos : s.config.qosSteerEnabled = false) (hw : s.Waits) (hr : clearKeys.Allows s e)
    (hs : s.Spares e) :
    s.handedOver.length < (s.next e).handedOver.length ∨ (s.next e).Waits := by
  have hrest : ∀ t : Endpoint, Undisturbed s t → t.Waits := fun t ht => ht.waits hw
  cases e with
  | expire csn a => exact .inr (expire_waits hw hr hs)
  | recv header a => exact recv_waits hrx hqos hw hr hs
  | probe probeFlag => exact .inr (hrest _ (sendAll_undisturbed hr))
  | tsu d => exact .inr (hrest _ (sendAll_undisturbed hr))
  | qosTestingRequest cid duration direction channelId =>
    exact .inr (hrest _ (sendNew_undisturbed hr _))
  | qosViolation direction => exact .inr (hrest _ (sendNew_undisturbed hr _))
  | wait ms => exact .inr (hrest _ (.of_eq rfl rfl))
  | sendData => exact .inr (hrest _ (.of_eq rfl rfl))
  | linkDown cause cid => exact .inr (hrest _ (.of_eq rfl rfl))
  | linkUp cause cid => exact .inr (hrest _ (.of_eq rfl rfl))
  | testFailTimes cids => exact .inr (hrest _ (.of_eq rfl rfl))

theorem next_config (s : Endpoint) (e : Event) : (s.next e).config = s.config := by
  by_cases hother : ∀ header a, e = .recv header a → header.type ≠ .tsu
  · exact (next_same s e hother).config
  · push Not at hother
    obtain ⟨header, a, rfl, ht⟩ := hother
    have hm := (recvLinkMap_same s header a).1.config
    rw [recv_tsu_eq ht, recvTsu, acceptTsu]
    split_ifs
    · exact hm
    · exact hm
    · exact hm

end Receiving
end Endpoint

structure MeasurementLoop where
  endpoint : Endpoint
  measurementOn : Bool := true

namespace MeasurementLoop

inductive Event
  | endpoint (e : Endpoint.Event)
  /-- The interval that ends a cycle, with the decision on its measurement. -/
  | measureIntervalEnd (d : SplittingDecision)

def enabled (s : MeasurementLoop) : Event → Prop
  | .endpoint e => s.endpoint.enabled e
  | .measureIntervalEnd _ => s.measurementOn

instance enabled.decidable (s : MeasurementLoop) : (e : Event) → Decidable (s.enabled e)
  | .endpoint e => inferInstanceAs (Decidable (s.endpoint.enabled e))
  | .measureIntervalEnd _ => inferInstanceAs (Decidable (s.measurementOn = true))

def startedByTsa (s s' : Endpoint) : Bool := s.handedOver.length < s'.handedOver.length

def next (s : MeasurementLoop) : Event → MeasurementLoop
  | .endpoint e =>
      { endpoint := s.endpoint.next e
        measurementOn := s.measurementOn || startedByTsa s.endpoint (s.endpoint.next e) }
  | .measureIntervalEnd d =>
      -- without an update `MeasureCycleStart` goes on with the next cycle
      if d.update then { endpoint := s.endpoint.sendTsu d, measurementOn := false } else s

def machine : Machine MeasurementLoop Event := ⟨enabled, next⟩

instance (s : MeasurementLoop) (e : Event) : Decidable (machine.enabled s e) :=
  enabled.decidable s e

/-- The measurement is on, or a TSU waits whose TSA starts it, whichever of its transmissions the
TSA is for. -/
def Alive (s : MeasurementLoop) : Prop :=
  s.measurementOn = true ∨ ∃ e ∈ s.endpoint.txedCtrQueue.toList,
    e.2.mxControlHeader.type = .tsu ∧ ∀ header a, header.type = .tsa →
      header.sequenceNumber ∈ e.2.csnToTxtimeMap →
      (s.next (.endpoint (.recv header a))).measurementOn = true

/-- The TSU that stops the measurement gets a number ahead of the TSAs, and what happens until it
is on again spares the TSUs that wait. -/
def Spared (s : MeasurementLoop) : Event → Prop
  | .endpoint e => s.measurementOn = true ∨
      Endpoint.clearKeys.Allows s.endpoint e ∧ s.endpoint.Spares e
  | .measureIntervalEnd d =>
      d.update = true → 0 < csnDiff s.endpoint.tsuNumber s.endpoint.maxTsaSn

instance (s : MeasurementLoop) : (e : Event) → Decidable (s.Spared e)
  | .endpoint e => inferInstanceAs (Decidable (s.measurementOn = true ∨
      Endpoint.clearKeys.Allows s.endpoint e ∧ s.endpoint.Spares e))
  | .measureIntervalEnd d => inferInstanceAs (Decidable
      (d.update = true → 0 < csnDiff s.endpoint.tsuNumber s.endpoint.maxTsaSn))

/-- What a run keeps: a measurement or a TSU that starts one, and the roles of the endpoint. -/
structure Running (s : MeasurementLoop) : Prop where
  alive : s.measurementOn = true ∨ s.endpoint.Waits
  rxMode : s.endpoint.config.rxMode = true
  qosSteer : s.endpoint.config.qosSteerEnabled = false

theorem Running.next {s : MeasurementLoop} (hs : Running s) {e : Event} (he : s.Spared e) :
    Running (s.next e) := by
  cases e with
  | endpoint e =>
    have hconfig := Endpoint.next_config s.endpoint e
    refine ⟨?_, (congrArg EndpointConfig.rxMode hconfig).trans hs.rxMode,
      (congrArg EndpointConfig.qosSteerEnabled hconfig).trans hs.qosSteer⟩
    by_cases hon : s.measurementOn = true
    · refine .inl ?_
      change (s.measurementOn || startedByTsa s.endpoint (s.endpoint.next e)) = true
      rw [hon, Bool.true_or]
    · have hwaits := hs.alive.resolve_left hon
      obtain ⟨hallows, hspares⟩ := he.resolve_left hon
      apply (Endpoint.next_waits hs.rxMode hs.qosSteer hwaits hallows hspares).imp _ id
      intro hstarted
      change (s.measurementOn || startedByTsa s.endpoint (s.endpoint.next e)) = true
      rw [startedByTsa, decide_eq_true hstarted, Bool.or_true]
  | measureIntervalEnd d =>
    dsimp only [MeasurementLoop.next]
    by_cases hupdate : d.update = true
    · rw [if_pos hupdate]
      obtain ⟨item, hq, hr⟩ := Endpoint.sendTsu_waits d (he hupdate)
      have hconfig := (Endpoint.sendAll_same s.endpoint (s.endpoint.tsuHeaders d)).1.config
      exact ⟨.inr (Endpoint.waits_iff.mpr ⟨_, item, hq, hr⟩),
        (congrArg EndpointConfig.rxMode hconfig).trans hs.rxMode,
        (congrArg EndpointConfig.qosSteerEnabled hconfig).trans hs.qosSteer⟩
    · rw [if_neg hupdate]
      exact hs

theorem Running.of_waits {s : MeasurementLoop} (hs : Running s) : Alive s := by
  apply hs.alive.imp id
  intro hwaits
  obtain ⟨e, he, hr⟩ := hwaits
  refine ⟨e, he, hr.1, ?_⟩
  intro header a htype hcsn
  have hover : s.endpoint.handsOver header :=
    ⟨Endpoint.ackLookup_isSome (Std.TreeMap.mem_toList_iff_getElem?_eq_some.mp he) hcsn,
      hs.rxMode, hr.2.2 _ (Std.TreeMap.mem_keys.mpr hcsn)⟩
  change (s.measurementOn ||
    startedByTsa s.endpoint (s.endpoint.next (.recv header a))) = true
  have hstarted : startedByTsa s.endpoint (s.endpoint.next (.recv header a)) = true := by
    rw [startedByTsa, Endpoint.recv_tsa htype, if_pos hover, List.length_append,
      List.length_singleton]
    exact decide_eq_true (by omega)
  rw [hstarted, Bool.or_true]

def start (config : EndpointConfig) (linkState : LinkState) (links : LinkIds) : MeasurementLoop :=
  ⟨Endpoint.start config linkState links, true⟩

/-- In every state of a run that spares the TSUs that wait, the measurement is on or a TSU waits
whose TSA starts it. -/
theorem measurement_restarts (config : EndpointConfig) (linkState : LinkState) (links : LinkIds)
    (hrx : config.rxMode = true) (hqos : config.qosSteerEnabled = false) {es : List Event}
    {s : MeasurementLoop}
    (h : (machine.restrict Spared).Reaches (start config linkState links) es s) : Alive s := by
  have hrunning : Running s := by
    apply h.invariant
    · exact ⟨.inl rfl, hrx, hqos⟩
    · intro t e ht he
      exact ht.next he.2
  exact hrunning.of_waits

def toSecond : SplittingDecision := { update := true, splitIndexList := [0, 4] }

def twoLinks : LinkIds := ⟨[0, 1], by decide⟩

def twoUp : MeasurementLoop := start {} { cidList := [0, 1] } twoLinks

/-- Two transmissions of the TSU are lost, and the first expiry of a probe passes in between. -/
def resentTwice : List Event :=
  [.endpoint (.probe 0), .endpoint (.recv { type := .ack, sequenceNumber := 0 } {}),
    .measureIntervalEnd toSecond, .endpoint (.expire 2 {}), .endpoint (.expire 1 {}),
    .endpoint (.expire 2 {})]

theorem measurement_restarts_resentTwice :
    Alive ((machine.restrict Spared).exec twoUp resentTwice) :=
  measurement_restarts {} { cidList := [0, 1] } twoLinks rfl rfl
    (Machine.Permits.reaches (by decide +kernel))

/-- A TSU that is never answered, and no TSU for the link it is blamed on. -/
def neverAnswered : List Event :=
  .endpoint (.probe 0) :: .endpoint (.recv { type := .ack, sequenceNumber := 0 } {}) ::
    .endpoint (.recv { type := .ack, sequenceNumber := 1 } {}) ::
    .measureIntervalEnd toSecond :: List.replicate 6 (.endpoint (.expire 2 {}))

/-- The TSU is given up for a failure of the first link, which had no traffic. -/
theorem measurement_stranded : ¬ ∀ (config : EndpointConfig) (linkState : LinkState)
    (links : LinkIds), config.rxMode = true → config.qosSteerEnabled = false →
    ∀ (es : List Event) (s : MeasurementLoop),
      machine.Reaches (start config linkState links) es s → Alive s := by
  intro hall
  have hrun : machine.Permits twoUp neverAnswered := by decide +kernel
  have hoff : (machine.exec twoUp neverAnswered).measurementOn = false := by decide +kernel
  have hnone : ∀ e ∈ (machine.exec twoUp neverAnswered).endpoint.txedCtrQueue.toList,
      e.2.mxControlHeader.type ≠ .tsu := by decide +kernel
  cases hall {} { cidList := [0, 1] } twoLinks rfl rfl neverAnswered _ hrun.reaches with
  | inl hon =>
    have hon : (machine.exec twoUp neverAnswered).measurementOn = true := hon
    rw [hoff] at hon
    cases hon
  | inr hwaits =>
    obtain ⟨e, he, htsu, _⟩ := hwaits
    exact hnone e he htsu

end MeasurementLoop
end NetGymSim.Gma

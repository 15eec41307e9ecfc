import NetGymSim.Lib.Machine
import NetGymSim.Lib.SerialNumber
import Mathlib.Tactic

/-!
# The reordering receiver of `GmaVirtualInterface`

`m_linkParamsMap` is its key list `cids` with a total table of link parameters,
walked in key order. Times are nanoseconds, counters of type `uint32_t` wrap. A
failed `NS_ASSERT_MSG` is recorded in `failedAsserts` and the code goes on, as a
build without assertions does. `forwarded` lists the calls of `MeasureAndForward`;
its measurements feed no modelled function and are left out.
-/

namespace NetGymSim.Gma
open NetGymSim.Lib

def maxGmaSn : ℕ := 0x00FFFFFF
def maxGmaLsn : ℕ := 0x000000FF
def noCid : ℕ := 255

def snDiff (x1 x2 : ℤ) : ℤ := wrapDiff 8388608 x1 x2
def lsnDiff (x1 x2 : ℤ) : ℤ := wrapDiff 128 x1 x2

def nextSn (sn : ℕ) : ℕ := (sn + 1) &&& maxGmaSn

theorem nextSn_eq (sn : ℕ) : nextSn sn = (sn + 1) % 16777216 :=
  Nat.and_two_pow_sub_one_eq_mod (sn + 1) 24

def milliSeconds (ms : ℤ) : ℤ := ms * 1000000
def seconds (s : ℤ) : ℤ := s * 1000000000
def maxReorderingTimeout : ℤ := milliSeconds 1000
def minReorderingTimeout : ℤ := milliSeconds 10

def uint32Max : ℕ := 4294967295
def incr32 (n : ℕ) : ℕ := (n + 1) % 4294967296
def decr32 (n : ℕ) : ℕ := (n + 4294967295) % 4294967296

structure GmaHeader where
  sequenceNumber : ℕ
  localSequenceNumber : ℕ
  connectionId : ℕ
  deriving DecidableEq, Repr

structure RxQueueItem (π : Type*) where
  packet : π
  gmaHeader : GmaHeader
  inOrder : Bool := false
  receivedTime : ℤ
  deriving DecidableEq

structure LinkParams (π : Type*) where
  reorderingQueue : List (RxQueueItem π) := []
  gmaRxLastLocalSn : ℕ := 255
  gmaRxLastSn : ℕ := maxGmaSn

structure MeasureParam where
  minOwd : ℕ := uint32Max
  maxOwd : ℕ := 0

/-- The place in the source that called `MeasureAndForward`. -/
inductive ReleasePath
  | direct | expected | lsnTest | minSn | queued | late | marked | expired | drained
  deriving DecidableEq, Repr

structure Delivery (π : Type*) where
  packet : π
  gmaHeader : GmaHeader
  path : ReleasePath
  expectedSn : ℕ
  deriving DecidableEq

structure TimerEvent where
  scheduledAt : ℤ
  delay : ℤ
  deriving DecidableEq

structure Receiver (π : Type*) where
  cids : List ℕ
  linkParams : ℕ → LinkParams π := fun _ => {}
  linkUp : ℕ → Bool := fun _ => true
  measureParams : List MeasureParam := []
  gmaRxExpectedSn : ℕ := 0
  totalQueueSize : ℕ := 0
  enableReordering : Bool := false
  useLsnReordering : Bool := true
  newLinkCid : ℕ := noCid
  reorderingTimeout : ℤ := maxReorderingTimeout
  nextReorderingUpdateTime : ℤ := 0
  reorderingTimeoutEvent : Option TimerEvent := none
  stopReorderEvent : Option TimerEvent := none
  reorderingTimeoutCounter : ℕ := 0
  now : ℤ := 0
  forwarded : List (Delivery π) := []
  failedAsserts : List String := []

namespace Receiver
variable {π : Type*}

def queue (r : Receiver π) (cid : ℕ) : List (RxQueueItem π) := (r.linkParams cid).reorderingQueue

def queued (r : Receiver π) : List (RxQueueItem π) := r.cids.flatMap r.queue

def assert (r : Receiver π) (cond : Bool) (msg : String) : Receiver π :=
  if cond then r else { r with failedAsserts := r.failedAsserts ++ [msg] }

def measureAndForward (r : Receiver π) (packet : π) (gmaHeader : GmaHeader)
    (path : ReleasePath) : Receiver π :=
  { r with forwarded := r.forwarded ++ [⟨packet, gmaHeader, path, r.gmaRxExpectedSn⟩] }

def expect (r : Receiver π) (sn : ℕ) : Receiver π := { r with gmaRxExpectedSn := nextSn sn }

def pop (r : Receiver π) (cid : ℕ) : Receiver π :=
  { r with
    linkParams := Function.update r.linkParams cid
      { r.linkParams cid with reorderingQueue := (r.queue cid).tail }
    totalQueueSize := decr32 r.totalQueueSize }

def push (r : Receiver π) (cid : ℕ) (item : RxQueueItem π) : Receiver π :=
  { r with
    linkParams := Function.update r.linkParams cid
      { r.linkParams cid with reorderingQueue := r.queue cid ++ [item] }
    totalQueueSize := incr32 r.totalQueueSize }

/-- The three statements with which a release branch hands on the front of a queue. -/
def release (r : Receiver π) (cid : ℕ) (item : RxQueueItem π) (path : ReleasePath) : Receiver π :=
  ((r.pop cid).measureAndForward item.packet item.gmaHeader path).expect
    item.gmaHeader.sequenceNumber

/-- The branches for an SN below the expected one: forwarded, and the expected SN stays. -/
def releaseLate (r : Receiver π) (cid : ℕ) (item : RxQueueItem π) : Receiver π :=
  (r.pop cid).measureAndForward item.packet item.gmaHeader .late

@[simp] theorem assert_queue (r : Receiver π) (cond : Bool) (msg : String) (cid : ℕ) :
    (r.assert cond msg).queue cid = r.queue cid := by unfold assert; split_ifs <;> rfl

@[simp] theorem assert_cids (r : Receiver π) (cond : Bool) (msg : String) :
    (r.assert cond msg).cids = r.cids := by unfold assert; split_ifs <;> rfl

@[simp] theorem assert_linkUp (r : Receiver π) (cond : Bool) (msg : String) :
    (r.assert cond msg).linkUp = r.linkUp := by unfold assert; split_ifs <;> rfl

@[simp] theorem assert_expectedSn (r : Receiver π) (cond : Bool) (msg : String) :
    (r.assert cond msg).gmaRxExpectedSn = r.gmaRxExpectedSn := by
  unfold assert; split_ifs <;> rfl

@[simp] theorem pop_queue_same (r : Receiver π) (cid : ℕ) :
    (r.pop cid).queue cid = (r.queue cid).tail := by simp [pop, queue]

@[simp] theorem pop_queue_other (r : Receiver π) {cid d : ℕ} (h : d ≠ cid) :
    (r.pop cid).queue d = r.queue d := by simp [pop, queue, h]

@[simp] theorem push_queue_same (r : Receiver π) (cid : ℕ) (item : RxQueueItem π) :
    (r.push cid item).queue cid = r.queue cid ++ [item] := by simp [push, queue]

@[simp] theorem push_queue_other (r : Receiver π) {cid d : ℕ} (item : RxQueueItem π)
    (h : d ≠ cid) : (r.push cid item).queue d = r.queue d := by simp [push, queue, h]

@[simp] theorem release_queue (r : Receiver π) (cid d : ℕ) (item : RxQueueItem π)
    (path : ReleasePath) : (r.release cid item path).queue d = (r.pop cid).queue d := rfl

theorem pop_queue (r : Receiver π) (cid : ℕ) :
    (r.pop cid).queue = Function.update r.queue cid (r.queue cid).tail := by
  funext d
  by_cases hd : d = cid
  · subst hd; simp
  · rw [pop_queue_other r hd, Function.update_of_ne hd]

theorem push_queue (r : Receiver π) (cid : ℕ) (item : RxQueueItem π) :
    (r.push cid item).queue = Function.update r.queue cid (r.queue cid ++ [item]) := by
  funext d
  by_cases hd : d = cid
  · subst hd; simp
  · rw [push_queue_other r item hd, Function.update_of_ne hd]

theorem queued_split (r : Receiver π) {cid : ℕ} (hn : r.cids.Nodup) (hc : cid ∈ r.cids) :
    ∃ before after, r.queued = before ++ r.queue cid ++ after ∧
      ∀ s : Receiver π, s.cids = r.cids → (∀ d, d ≠ cid → s.queue d = r.queue d) →
        s.queued = before ++ s.queue cid ++ after := by
  obtain ⟨l₁, l₂, hl⟩ := List.append_of_mem hc
  rw [hl] at hn
  have h1 : cid ∉ l₁ := fun h => (List.nodup_append.mp hn).2.2 cid h cid (by simp) rfl
  have h2 : cid ∉ l₂ := (List.nodup_cons.mp (List.nodup_append.mp hn).2.1).1
  refine ⟨l₁.flatMap r.queue, l₂.flatMap r.queue, by simp [queued, hl], ?_⟩
  intro s hs hq
  have e1 : l₁.flatMap s.queue = l₁.flatMap r.queue :=
    List.flatMap_congr fun d hd => hq d (fun e => h1 (e ▸ hd))
  have e2 : l₂.flatMap s.queue = l₂.flatMap r.queue :=
    List.flatMap_congr fun d hd => hq d (fun e => h2 (e ▸ hd))
  simp [queued, hs, hl, e1, e2]

theorem queued_pop (r : Receiver π) {cid : ℕ} {item : RxQueueItem π} {rest : List (RxQueueItem π)}
    (hn : r.cids.Nodup) (hc : cid ∈ r.cids) (hq : r.queue cid = item :: rest) :
    r.queued.Perm (item :: (r.pop cid).queued) := by
  obtain ⟨before, after, h, hs⟩ := r.queued_split hn hc
  rw [h, hs (r.pop cid) rfl (fun d hd => r.pop_queue_other hd), hq, pop_queue_same, hq]
  rw [List.append_assoc, List.append_assoc]
  exact List.perm_middle

theorem queued_push (r : Receiver π) {cid : ℕ} (item : RxQueueItem π) (hn : r.cids.Nodup)
    (hc : cid ∈ r.cids) : (r.push cid item).queued.Perm (item :: r.queued) := by
  obtain ⟨before, after, h, hs⟩ := r.queued_split hn hc
  rw [h, hs (r.push cid item) rfl (fun d hd => r.push_queue_other item hd), push_queue_same]
  rw [← List.append_assoc, List.append_assoc]
  exact List.perm_middle

def replaces (minSn : ℕ) (item : RxQueueItem π) : Bool :=
  minSn = maxGmaSn ∨ snDiff minSn item.gmaHeader.sequenceNumber > 0

/-- The walk of `ReleaseInOrderPackets` and `ReleaseAllPackets`: empty queues are skipped. -/
def scanFronts (r : Receiver π) : List ℕ → ℕ × ℕ → ℕ × ℕ
  | [], best => best
  | cid :: cids, best =>
      match r.queue cid with
      | [] => scanFronts r cids best
      | item :: _ =>
          if replaces best.1 item then scanFronts r cids (item.gmaHeader.sequenceNumber, cid)
          else scanFronts r cids best

/-- The walk of `ReleaseMinSnPacket`: an empty queue of a link that is up ends it. -/
def scanAllFronts (r : Receiver π) : List ℕ → ℕ × ℕ → Option (ℕ × ℕ)
  | [], best => some best
  | cid :: cids, best =>
      match r.queue cid with
      | [] => if r.linkUp cid then none else scanAllFronts r cids best
      | item :: _ =>
          if replaces best.1 item then scanAllFronts r cids (item.gmaHeader.sequenceNumber, cid)
          else scanAllFronts r cids best

theorem scanFronts_congr {r s : Receiver π} (h : ∀ cid, s.queue cid = r.queue cid)
    (cids : List ℕ) (best : ℕ × ℕ) : s.scanFronts cids best = r.scanFronts cids best := by
  induction cids generalizing best with
  | nil => rfl
  | cons cid cids ih => simp only [scanFronts, h, ih]

theorem scanAllFronts_congr {r s : Receiver π} (h : ∀ cid, s.queue cid = r.queue cid)
    (hu : s.linkUp = r.linkUp) (cids : List ℕ) (best : ℕ × ℕ) :
    s.scanAllFronts cids best = r.scanAllFronts cids best := by
  induction cids generalizing best with
  | nil => rfl
  | cons cid cids ih => simp only [scanAllFronts, h, hu, ih]

@[simp] theorem assert_scanFronts (r : Receiver π) (cond : Bool) (msg : String) (cids : List ℕ)
    (best : ℕ × ℕ) : (r.assert cond msg).scanFronts cids best = r.scanFronts cids best :=
  scanFronts_congr (assert_queue r cond msg) cids best

@[simp] theorem assert_scanAllFronts (r : Receiver π) (cond : Bool) (msg : String)
    (cids : List ℕ) (best : ℕ × ℕ) :
    (r.assert cond msg).scanAllFronts cids best = r.scanAllFronts cids best :=
  scanAllFronts_congr (assert_queue r cond msg) (assert_linkUp r cond msg) cids best

theorem scanAllFronts_eq (r : Receiver π) {cids : List ℕ} {best found : ℕ × ℕ}
    (h : r.scanAllFronts cids best = some found) : r.scanFronts cids best = found := by
  induction cids generalizing best with
  | nil => exact Option.some.inj h
  | cons cid cids ih =>
    unfold scanAllFronts at h
    unfold scanFronts
    cases hq : r.queue cid with
    | nil =>
      simp only [hq] at h ⊢
      split_ifs at h
      exact ih h
    | cons item rest =>
      simp only [hq] at h ⊢
      split_ifs at h ⊢ <;> exact ih h

theorem scanFronts_mem (r : Receiver π) (cids : List ℕ) (best : ℕ × ℕ) :
    (r.scanFronts cids best = best ∨
      ∃ item rest, (r.scanFronts cids best).2 ∈ cids ∧
        r.queue (r.scanFronts cids best).2 = item :: rest ∧
        (r.scanFronts cids best).1 = item.gmaHeader.sequenceNumber) := by
  induction cids generalizing best with
  | nil => exact .inl rfl
  | cons cid cids ih =>
    unfold scanFronts
    cases hq : r.queue cid with
    | nil =>
      rcases ih best with h | ⟨item, rest, hmem, h⟩
      · exact .inl h
      · exact .inr ⟨item, rest, by simp [hmem], h⟩
    | cons item rest =>
      dsimp only
      split_ifs
      · rcases ih (item.gmaHeader.sequenceNumber, cid) with h | ⟨item', rest', hmem, h⟩
        · exact .inr ⟨item, rest, by rw [h]; simp, by rw [h]; exact hq, by rw [h]⟩
        · exact .inr ⟨item', rest', by simp [hmem], h⟩
      · rcases ih best with h | ⟨item', rest', hmem, h⟩
        · exact .inl h
        · exact .inr ⟨item', rest', by simp [hmem], h⟩

theorem scanFronts_front (r : Receiver π) {cids : List ℕ} {best : ℕ × ℕ} {cid : ℕ}
    (hbest : best.1 = maxGmaSn) (hc : cid ∈ cids) (hq : r.queue cid ≠ []) :
    ∃ item rest, (r.scanFronts cids best).2 ∈ cids ∧
      r.queue (r.scanFronts cids best).2 = item :: rest ∧
      (r.scanFronts cids best).1 = item.gmaHeader.sequenceNumber := by
  induction cids generalizing best with
  | nil => simp at hc
  | cons d cids ih =>
    unfold scanFronts
    cases hd : r.queue d with
    | nil =>
      have hcd : cid ∈ cids := by
        rcases List.mem_cons.mp hc with rfl | h
        · exact absurd hd hq
        · exact h
      obtain ⟨item, rest, hmem, h⟩ := ih hbest hcd
      exact ⟨item, rest, by simp [hmem], h⟩
    | cons item rest =>
      have hr : replaces best.1 item = true := by simp [replaces, hbest]
      simp only [hr, ↓reduceIte]
      rcases r.scanFronts_mem cids (item.gmaHeader.sequenceNumber, d) with h | ⟨item', rest', hm, h⟩
      · exact ⟨item, rest, by rw [h]; simp, by rw [h]; exact hd, by rw [h]⟩
      · exact ⟨item', rest', by simp [hm], h⟩

def releaseMinSnTurn (r : Receiver π) : Turn (Receiver π) :=
  match r.scanAllFronts r.cids (maxGmaSn, noCid) with
  | none => .done r
  | some (minSn, minCid) =>
      if minSn = maxGmaSn then .done r
      else
        let r := r.assert (minCid ≠ noCid) " cannot be the initial value"
        match r.queue minCid with
        | [] => .done r
        | itemDequeue :: _ =>
            if snDiff itemDequeue.gmaHeader.sequenceNumber r.gmaRxExpectedSn ≥ 0 then
              .again (r.release minCid itemDequeue .minSn)
            else
              -- the source's comment here reads "discard duplicated packets."
              .again (r.releaseLate minCid itemDequeue)

def releaseMinSnPacket (r : Receiver π) : Receiver π :=
  loop releaseMinSnTurn (r.queued.length + 1) r

def updateReorderTimeout (r : Receiver π) : Receiver π :=
  let maxOwd := r.measureParams.foldl (fun m p => if m < p.maxOwd then p.maxOwd else m) 0
  let minOwd := r.measureParams.foldl (fun m p => if m > p.minOwd then p.minOwd else m) uint32Max
  if maxOwd ≠ 0 ∧ minOwd ≠ uint32Max then
    if r.measureParams.length > 1 then
      let spread := (2 * (maxOwd + 4294967296 - minOwd)) % 4294967296
      let newReorderingTimeout :=
        max minReorderingTimeout (min maxReorderingTimeout (milliSeconds spread))
      if newReorderingTimeout > r.reorderingTimeout then
        { r with reorderingTimeout := newReorderingTimeout }
      else r
    else r
  else r

theorem updateReorderTimeout_eq (r : Receiver π) :
    ∃ t, r.updateReorderTimeout = { r with reorderingTimeout := t } := by
  unfold updateReorderTimeout
  dsimp only
  split_ifs
  · exact ⟨_, rfl⟩
  all_goals exact ⟨r.reorderingTimeout, rfl⟩

def releaseAllTurn (r : Receiver π) : Turn (Receiver π) :=
  if r.totalQueueSize = 0 then .done r
  else
    let minCid := (r.scanFronts r.cids (maxGmaSn, noCid)).2
    let r := r.assert (minCid ≠ noCid) " cannot be the initial value"
    match r.queue minCid with
    | [] => .done r
    | itemDequeue :: _ => .again (r.release minCid itemDequeue .drained)

def releaseAllPackets (r : Receiver π) : Receiver π :=
  loop releaseAllTurn (r.queued.length + 1) r

/-- The `reason` argument only chooses a message that is commented out. -/
def stopReordering (r : Receiver π) (_reason : ℕ) : Receiver π :=
  releaseAllPackets
    (if r.enableReordering then
      { r with enableReordering := false, newLinkCid := noCid, stopReorderEvent := none }
    else r)

def frontExpired (r : Receiver π) (cid : ℕ) : Bool :=
  match r.queue cid with
  | [] => false
  | item :: _ => r.now ≥ item.receivedTime + r.reorderingTimeout

/-- One turn of the loop of `ReleaseInOrderPackets`; `minCid` outlives the loop. -/
def releaseInOrderTurn (s : Receiver π × ℕ) : Turn (Receiver π × ℕ) :=
  let r := s.1
  if r.totalQueueSize = 0 then .done s
  else
    let best := r.scanFronts r.cids (maxGmaSn, s.2)
    let minSn := best.1
    let minCid := best.2
    match r.queue minCid with
    | [] => .done (r, minCid)
    | item :: _ =>
        if minSn = r.gmaRxExpectedSn then
          let r := (r.assert (minCid ≠ noCid) " cannot be the initial value").release minCid item
            .queued
          if r.newLinkCid = item.gmaHeader.connectionId then .again (r.stopReordering 0, minCid)
          else .again (r, minCid)
        else if snDiff minSn r.gmaRxExpectedSn < 0 then .again (r.releaseLate minCid item, minCid)
        else
          let r := r.assert (minCid ≠ noCid) " cannot be the initial value"
          if item.inOrder then .again (r.release minCid item .marked, minCid)
          else if r.cids.any r.frontExpired then
            let r := { r with reorderingTimeoutCounter := r.reorderingTimeoutCounter + 1 }
            .again (r.release minCid item .expired, minCid)
          else .done (r, minCid)

/-- The timer part of `ReleaseInOrderPackets`, after the loop left `minCid`. -/
def rescheduleTimeout (r : Receiver π) (minCid : ℕ) : Receiver π :=
  if r.totalQueueSize > 0 then
    match r.queue minCid with
    | [] => { r with reorderingTimeoutEvent := none }
    | item :: _ =>
        { r with
          reorderingTimeoutEvent :=
            some ⟨r.now, r.reorderingTimeout + milliSeconds 1 - (r.now - item.receivedTime)⟩ }
  else { r with reorderingTimeoutEvent := none }

def releaseInOrderPackets (r : Receiver π) : Receiver π :=
  let s := loop releaseInOrderTurn (r.queued.length + 1) (r.updateReorderTimeout, noCid)
  s.1.rescheduleTimeout s.2

/-- `receivedTime` is the only field the two enqueueing branches do not choose. -/
def enqueue (r : Receiver π) (packet : π) (gmaHeader : GmaHeader) (cid : ℕ) (inOrder : Bool) :
    Receiver π :=
  r.push cid ⟨packet, gmaHeader, inOrder, r.now⟩

def recordLast (r : Receiver π) (gmaHeader : GmaHeader) (cid : ℕ) : Receiver π :=
  { r with
    linkParams := Function.update r.linkParams cid
      { r.linkParams cid with
        gmaRxLastLocalSn := gmaHeader.localSequenceNumber
        gmaRxLastSn := gmaHeader.sequenceNumber } }

@[simp] theorem recordLast_queue (r : Receiver π) (gmaHeader : GmaHeader) (cid : ℕ) :
    (r.recordLast gmaHeader cid).queue = r.queue := by
  funext d
  by_cases hd : d = cid <;> simp [recordLast, queue, hd]

def stopIfNewLink (r : Receiver π) (cid : ℕ) : Receiver π :=
  if r.newLinkCid = cid then r.stopReordering 0 else r

/-- The test of `InOrderDelivery` that every SN since the last one of the link was lost on it. -/
def lsnTest (r : Receiver π) (gmaHeader : GmaHeader) (cid : ℕ) : Bool :=
  let link := r.linkParams cid
  r.useLsnReordering ∧
    lsnDiff gmaHeader.localSequenceNumber link.gmaRxLastLocalSn - 1 =
      snDiff gmaHeader.sequenceNumber link.gmaRxLastSn - 1

def armStopReorder (r : Receiver π) (cid : ℕ) : Receiver π :=
  if r.newLinkCid = cid ∧ r.stopReorderEvent = none then
    let r := r.updateReorderTimeout
    { r with stopReorderEvent := some ⟨r.now, r.reorderingTimeout⟩ }
  else r

theorem armStopReorder_eq (r : Receiver π) (cid : ℕ) :
    ∃ t e, r.armStopReorder cid = { r with reorderingTimeout := t, stopReorderEvent := e } := by
  unfold armStopReorder
  split_ifs
  · obtain ⟨t, ht⟩ := r.updateReorderTimeout_eq
    exact ⟨t, _, by rw [ht]⟩
  · exact ⟨r.reorderingTimeout, r.stopReorderEvent, rfl⟩

/-- The branch of `InOrderDelivery` for an SN above the expected one. -/
def outOfOrder (r : Receiver π) (packet : π) (gmaHeader : GmaHeader) (cid : ℕ) : Receiver π :=
  if r.lsnTest gmaHeader cid then
    if (r.queue cid).length = 0 then
      let r := (r.measureAndForward packet gmaHeader .lsnTest).expect gmaHeader.sequenceNumber
      r.releaseInOrderPackets.stopIfNewLink cid
    else
      let r := r.assert (r.totalQueueSize ≠ 0) "it cannnot be empty here"
      let r := r.assert r.reorderingTimeoutEvent.isSome "The reordering cannot be expired"
      r.enqueue packet gmaHeader cid true
  else (r.armStopReorder cid).enqueue packet gmaHeader cid false

def inOrderDelivery (r : Receiver π) (packet : π) (gmaHeader : GmaHeader) (cid : ℕ) :
    Receiver π :=
  let r :=
    if gmaHeader.sequenceNumber = r.gmaRxExpectedSn then
      let r := (r.measureAndForward packet gmaHeader .expected).expect r.gmaRxExpectedSn
      r.releaseInOrderPackets.stopIfNewLink cid
    else if snDiff gmaHeader.sequenceNumber r.gmaRxExpectedSn < 0 then r
    else (r.outOfOrder packet gmaHeader cid).releaseMinSnPacket.releaseInOrderPackets
  r.recordLast gmaHeader cid

/-- `ReorderingTimeout`, run by its event, which is no longer pending then. -/
def reorderingTimeoutFires (r : Receiver π) : Receiver π :=
  let r := { r with reorderingTimeoutEvent := none }.releaseInOrderPackets
  { r with
    reorderingTimeout :=
      max minReorderingTimeout (min maxReorderingTimeout (2 * r.reorderingTimeout))
    nextReorderingUpdateTime := r.now + seconds 10 }

def receive (r : Receiver π) (packet : π) (gmaHeader : GmaHeader) : Receiver π :=
  if r.enableReordering then r.inOrderDelivery packet gmaHeader gmaHeader.connectionId
  else
    (r.expect gmaHeader.sequenceNumber).measureAndForward packet gmaHeader .direct

end Receiver
end NetGymSim.Gma

import NetGymSim.Gma.ReorderingBuffer

/-!
# Runs of the reordering receiver

`RxRun` adds to the receiver what came in and what was dropped on arrival with the
SN expected then. An event is a call of `InOrderDelivery`, a firing of the timeout,
a `StopReordering`, or a change of something the receiver reads: link states, time,
measurements and settings. `Accounted` is kept by every event as long as fewer than
2^32 packets are queued; the counter is a `uint32_t` and wraps beyond that.
-/

namespace NetGymSim.Gma
open NetGymSim.Lib

structure Settings where
  enableReordering : Bool
  useLsnReordering : Bool
  newLinkCid : ℕ
  reorderingTimeout : ℤ

inductive RxEvent (π : Type*)
  | inOrderDelivery (packet : π) (gmaHeader : GmaHeader) (cid : ℕ)
  | reorderingTimeout
  | stopReordering (reason : ℕ)
  | linkState (cid : ℕ) (up : Bool)
  | wait (ns : ℕ)
  | measure (params : List MeasureParam)
  | configure (settings : Settings)

structure RxRun (π : Type*) where
  rx : Receiver π
  received : List (π × GmaHeader) := []
  dropped : List ((π × GmaHeader) × ℕ) := []

namespace RxRun
variable {π : Type*}

def deliver (s : RxRun π) (packet : π) (gmaHeader : GmaHeader) (cid : ℕ) : RxRun π where
  rx := s.rx.inOrderDelivery packet gmaHeader cid
  received := s.received ++ [(packet, gmaHeader)]
  dropped :=
    if snDiff gmaHeader.sequenceNumber s.rx.gmaRxExpectedSn < 0 then
      s.dropped ++ [((packet, gmaHeader), s.rx.gmaRxExpectedSn)]
    else s.dropped

def next (s : RxRun π) : RxEvent π → RxRun π
  | .inOrderDelivery packet gmaHeader cid => s.deliver packet gmaHeader cid
  | .reorderingTimeout => { s with rx := s.rx.reorderingTimeoutFires }
  | .stopReordering reason => { s with rx := s.rx.stopReordering reason }
  | .linkState cid up => { s with rx := { s.rx with linkUp := Function.update s.rx.linkUp cid up } }
  | .wait ns => { s with rx := { s.rx with now := s.rx.now + ns } }
  | .measure params => { s with rx := { s.rx with measureParams := params } }
  | .configure settings =>
      { s with
        rx := { s.rx with
          enableReordering := settings.enableReordering
          useLsnReordering := settings.useLsnReordering
          newLinkCid := settings.newLinkCid
          reorderingTimeout := settings.reorderingTimeout } }

def enabled (s : RxRun π) : RxEvent π → Prop
  | .inOrderDelivery _ gmaHeader cid => cid ∈ s.rx.cids ∧ gmaHeader.connectionId = cid
  | .reorderingTimeout => s.rx.reorderingTimeoutEvent.isSome
  | .stopReordering reason => reason ≤ 2
  | _ => True

def hasRoom (s : RxRun π) : RxEvent π → Prop
  | .inOrderDelivery _ _ _ => s.rx.queued.length + 1 < 4294967296
  | _ => True

instance (s : RxRun π) : (e : RxEvent π) → Decidable (s.enabled e)
  | .inOrderDelivery _ gmaHeader cid =>
      inferInstanceAs (Decidable (cid ∈ s.rx.cids ∧ gmaHeader.connectionId = cid))
  | .reorderingTimeout => inferInstanceAs (Decidable (s.rx.reorderingTimeoutEvent.isSome = true))
  | .stopReordering reason => inferInstanceAs (Decidable (reason ≤ 2))
  | .linkState _ _ | .wait _ | .measure _ | .configure _ => inferInstanceAs (Decidable True)

instance (s : RxRun π) : (e : RxEvent π) → Decidable (s.hasRoom e)
  | .inOrderDelivery _ _ _ => inferInstanceAs (Decidable (s.rx.queued.length + 1 < 4294967296))
  | .reorderingTimeout | .stopReordering _ | .linkState _ _ | .wait _ | .measure _
  | .configure _ => inferInstanceAs (Decidable True)

def machine (π : Type*) : Machine (RxRun π) (RxEvent π) := ⟨enabled, next⟩

instance (s : RxRun π) (e : RxEvent π) : Decidable ((machine π).enabled s e) :=
  inferInstanceAs (Decidable (s.enabled e))

end RxRun

structure Receiver.Fresh {π : Type*} (r : Receiver π) : Prop where
  nodup : r.cids.Nodup
  queues : ∀ cid, r.queue cid = []
  total : r.totalQueueSize = 0
  forwarded : r.forwarded = []
  asserts : r.failedAsserts = []

structure RxRun.Accounted {π : Type*} (s : RxRun π) : Prop where
  conserves : ∃ K, s.rx.Conserves K ∧
    (s.received : Multiset (π × GmaHeader)) = K + (s.dropped.map Prod.fst : List (π × GmaHeader))
  armed : s.rx.Armed
  late : ∀ d ∈ s.dropped, snDiff d.1.2.sequenceNumber d.2 < 0

namespace Receiver
variable {π : Type*} {K : Multiset (π × GmaHeader)} {r : Receiver π}

theorem Fresh.conserves (h : r.Fresh) : r.Conserves 0 := by
  have hq : r.queued = [] := by
    simp only [Receiver.queued, List.flatMap_eq_nil_iff]
    exact fun cid _ => h.queues cid
  refine ⟨h.nodup, fun cid _ => h.queues cid, by rw [h.total, hq]; rfl, by simp [hq], ?_, ?_⟩
  · rw [held, hq, h.forwarded]; rfl
  · simp [h.asserts]

theorem Conserves.asserts_hold (h : r.Conserves K) (ha : r.Armed) {cid : ℕ}
    (hq : (r.queue cid).length ≠ 0) (m1 m2 : String) :
    (r.assert (r.totalQueueSize ≠ 0) m1).assert
      (r.assert (r.totalQueueSize ≠ 0) m1).reorderingTimeoutEvent.isSome m2 = r := by
  obtain ⟨item, rest, hcons⟩ := List.exists_cons_of_ne_nil
    (fun e => hq (by rw [e]; rfl) : r.queue cid ≠ [])
  have hl := r.length_release .queued h.nodup (h.mem_cids hcons) hcons
  have ht : r.totalQueueSize ≠ 0 := by rw [h.total]; omega
  have h1 : r.assert (r.totalQueueSize ≠ 0) m1 = r := by simp [Receiver.assert, ht]
  rcases ha with h0 | ⟨e, he, _⟩
  · exact absurd h0 ht
  · rw [h1]; simp [Receiver.assert, he]

theorem Conserves.outOfOrder (h : r.Conserves K) (ha : r.Armed) (packet : π)
    (gmaHeader : GmaHeader) {cid : ℕ} (hc : cid ∈ r.cids) (hs : r.queued.length + 1 < 4294967296) :
    (r.outOfOrder packet gmaHeader cid).Conserves ((packet, gmaHeader) ::ₘ K) := by
  unfold Receiver.outOfOrder
  split_ifs with hl hq
  · have hm := (h.measureAndForward packet gmaHeader .lsnTest
      gmaHeader.sequenceNumber).releaseInOrderPackets
    exact (hm.1.stopIfNewLink hm.2 cid).1
  · dsimp only
    rw [h.asserts_hold ha hq]
    exact h.enqueue packet gmaHeader true hc hs
  · have hu := h.armStopReorder cid
    obtain ⟨t, e, he⟩ := r.armStopReorder_eq cid
    rw [he] at hu ⊢
    exact hu.enqueue packet gmaHeader false hc hs

theorem Conserves.recordLast (h : r.Conserves K) (ha : r.Armed) (gmaHeader : GmaHeader)
    (cid : ℕ) : (r.recordLast gmaHeader cid).Conserves K ∧ (r.recordLast gmaHeader cid).Armed := by
  have hq := r.recordLast_queue gmaHeader cid
  have hall : (r.recordLast gmaHeader cid).queued = r.queued := by
    unfold Receiver.queued
    rw [hq]
    rfl
  refine ⟨⟨h.nodup, fun d hd => (congrFun hq d).trans (h.unregistered d hd), ?_, ?_, ?_,
    h.asserts⟩, ha⟩
  · rw [hall]; exact h.total
  · rw [hall]; exact h.small
  · rw [← h.content, held, hall]; rfl

theorem Conserves.inOrderDelivery (h : r.Conserves K) (ha : r.Armed) (packet : π)
    (gmaHeader : GmaHeader) {cid : ℕ} (hc : cid ∈ r.cids) (hs : r.queued.length + 1 < 4294967296) :
    (r.inOrderDelivery packet gmaHeader cid).Conserves
        (if snDiff gmaHeader.sequenceNumber r.gmaRxExpectedSn < 0 then K
          else (packet, gmaHeader) ::ₘ K) ∧
      (r.inOrderDelivery packet gmaHeader cid).Armed := by
  unfold Receiver.inOrderDelivery
  by_cases hexp : gmaHeader.sequenceNumber = r.gmaRxExpectedSn
  · have hz : snDiff gmaHeader.sequenceNumber r.gmaRxExpectedSn = 0 := by
      rw [hexp]; exact wrapDiff_self _ _ (by norm_num)
    have hm := (h.measureAndForward packet gmaHeader .expected
      r.gmaRxExpectedSn).releaseInOrderPackets
    have hn := hm.1.stopIfNewLink hm.2 cid
    rw [if_pos hexp, hz, if_neg (by decide)]
    exact hn.1.recordLast hn.2 gmaHeader cid
  · rw [if_neg hexp]
    by_cases hlt : snDiff gmaHeader.sequenceNumber r.gmaRxExpectedSn < 0
    · rw [if_pos hlt, if_pos hlt]
      exact h.recordLast ha gmaHeader cid
    · rw [if_neg hlt, if_neg hlt]
      have ho := h.outOfOrder ha packet gmaHeader hc hs
      have hr := ((conserves_keeps _).releaseMinSnPacket ho).releaseInOrderPackets
      exact hr.1.recordLast hr.2 gmaHeader cid

end Receiver

namespace RxRun.Accounted
variable {π : Type*} {s : RxRun π}

theorem of_rx (h : s.Accounted) {r : Receiver π}
    (hr : ∀ K, s.rx.Conserves K → r.Conserves K) (ha : r.Armed) :
    Accounted { s with rx := r } := by
  obtain ⟨K, hK, hsum⟩ := h.conserves
  exact ⟨⟨K, hr K hK, hsum⟩, ha, h.late⟩

theorem deliver (h : s.Accounted) (packet : π) (gmaHeader : GmaHeader) {cid : ℕ}
    (hc : cid ∈ s.rx.cids) (hs : s.rx.queued.length + 1 < 4294967296) :
    (s.deliver packet gmaHeader cid).Accounted := by
  obtain ⟨K, hK, hsum⟩ := h.conserves
  have hd := hK.inOrderDelivery h.armed packet gmaHeader hc hs
  refine ⟨⟨_, hd.1, ?_⟩, hd.2, ?_⟩
  · simp only [RxRun.deliver]
    split_ifs with hlt
    · rw [List.map_append, ← Multiset.coe_add, ← Multiset.coe_add, hsum, add_assoc]
      rfl
    · rw [← Multiset.coe_add, hsum, add_comm, ← Multiset.singleton_add]
      rw [Multiset.coe_singleton, add_assoc]
  · intro d hmem
    simp only [RxRun.deliver] at hmem
    split_ifs at hmem with hlt
    · rcases List.mem_append.mp hmem with hm | hm
      · exact h.late d hm
      · rw [List.mem_singleton.mp hm]; exact hlt
    · exact h.late d hmem

theorem step (h : s.Accounted) (e : RxEvent π) (he : s.enabled e) (hroom : s.hasRoom e) :
    (s.next e).Accounted := by
  obtain ⟨K, hK, hsum⟩ := h.conserves
  cases e with
  | inOrderDelivery packet gmaHeader cid => exact h.deliver packet gmaHeader he.1 hroom
  | reorderingTimeout =>
    exact h.of_rx (fun K hK => hK.reorderingTimeoutFires.1) hK.reorderingTimeoutFires.2
  | stopReordering reason =>
    have hs := hK.stopReordering reason
    exact h.of_rx (fun K hK => (hK.stopReordering reason).1) (.inl (by rw [hs.1.total, hs.2]))
  | linkState cid up =>
    exact h.of_rx (fun K h => ⟨h.nodup, h.unregistered, h.total, h.small, h.content, h.asserts⟩)
      h.armed
  | wait ns =>
    exact h.of_rx (fun K h => ⟨h.nodup, h.unregistered, h.total, h.small, h.content, h.asserts⟩)
      h.armed
  | measure params =>
    exact h.of_rx (fun K h => ⟨h.nodup, h.unregistered, h.total, h.small, h.content, h.asserts⟩)
      h.armed
  | configure settings =>
    exact h.of_rx (fun K h => ⟨h.nodup, h.unregistered, h.total, h.small, h.content, h.asserts⟩)
      h.armed

theorem of_reaches {start : Receiver π} (hstart : start.Fresh) {es : List (RxEvent π)}
    (h : ((machine π).restrict hasRoom).Reaches { rx := start } es s) : s.Accounted := by
  refine Machine.Reaches.invariant (P := Accounted) ?_ ?_ h
  · exact ⟨⟨0, hstart.conserves, rfl⟩, .inl hstart.total, by simp⟩
  · intro s e hs ⟨he, hroom⟩
    exact hs.step e he hroom

end RxRun.Accounted

structure RxRun.NothingLost {π : Type*} (s : RxRun π) : Prop where
  total : s.rx.totalQueueSize = (s.rx.cids.map fun cid => (s.rx.queue cid).length).sum
  once : (s.received : Multiset (π × GmaHeader)) =
    (s.rx.forwarded.map fun d => (d.packet, d.gmaHeader) : List (π × GmaHeader)) +
      (s.rx.queued.map fun i => (i.packet, i.gmaHeader) : List (π × GmaHeader)) +
      (s.dropped.map Prod.fst : List (π × GmaHeader))
  late : ∀ d ∈ s.dropped, snDiff d.1.2.sequenceNumber d.2 < 0
  pending : s.rx.totalQueueSize > 0 → ∃ e, s.rx.reorderingTimeoutEvent = some e ∧ 0 < e.delay
  asserts : "it cannnot be empty here" ∉ s.rx.failedAsserts ∧
    "The reordering cannot be expired" ∉ s.rx.failedAsserts

theorem reordering_buffer_loses_nothing {π : Type*} {start : Receiver π} (hstart : start.Fresh)
    {es : List (RxEvent π)} {s : RxRun π}
    (h : ((RxRun.machine π).restrict RxRun.hasRoom).Reaches { rx := start } es s) :
    s.NothingLost := by
  have ha := RxRun.Accounted.of_reaches hstart h
  obtain ⟨K, hK, hsum⟩ := ha.conserves
  refine ⟨?_, ?_, ha.late, ?_, ?_, ?_⟩
  · rw [hK.total, Receiver.queued, List.length_flatMap]
  · rw [hsum, ← hK.content]; rfl
  · intro ht
    exact ha.armed.resolve_left (by omega)
  · intro hm
    exact absurd (hK.asserts _ hm) (by decide)
  · intro hm
    exact absurd (hK.asserts _ hm) (by decide)

/-- The second packet of a sender overtakes the first, the timeout releases it, and the
first is dropped when it arrives. -/
theorem reordering_buffer_loses_nothing_overtaken :
    (((RxRun.machine ℕ).restrict RxRun.hasRoom).exec
      { rx := { cids := [0, 1], enableReordering := true, useLsnReordering := false } }
      [.inOrderDelivery 71 ⟨1, 0, 1⟩ 1, .wait 1001000000, .reorderingTimeout,
        .inOrderDelivery 70 ⟨0, 0, 0⟩ 0]).NothingLost :=
  reordering_buffer_loses_nothing ⟨by decide, fun _ => rfl, rfl, rfl, rfl⟩
    (Machine.Permits.reaches (by decide))

/-! ### 2^32 packets behind one gap -/

def waitingItem : RxQueueItem ℕ := { packet := 7, gmaHeader := ⟨5, 0, 0⟩, receivedTime := 0 }

def waiting (n lastLocalSn lastSn : ℕ) : Receiver ℕ where
  cids := [0, 1]
  linkParams := fun cid =>
    if cid = 0 then ⟨List.replicate n waitingItem, lastLocalSn, lastSn⟩ else {}
  totalQueueSize := n % 4294967296
  enableReordering := true
  useLsnReordering := false
  reorderingTimeoutEvent := if n % 4294967296 = 0 then none else some ⟨0, 1001000000⟩

theorem waiting_push (n a b : ℕ) (t : Option TimerEvent) :
    { (waiting n a b).push 0 waitingItem with reorderingTimeoutEvent := t } =
      { waiting (n + 1) a b with reorderingTimeoutEvent := t } := by
  have hq : ((waiting n a b).push 0 waitingItem).linkParams = (waiting (n + 1) a b).linkParams := by
    funext cid
    by_cases hc : cid = 0 <;>
      simp [Receiver.push, Receiver.queue, waiting, hc, List.replicate_succ']
  have ht : incr32 (n % 4294967296) = (n + 1) % 4294967296 := by
    unfold incr32
    omega
  have hp := congrArg (fun l => { waiting (n + 1) a b with
    linkParams := l, reorderingTimeoutEvent := t }) hq
  rw [← hp]
  simp [Receiver.push, waiting, ht]

theorem waiting_releaseMinSn (n a b : ℕ) (t : Option TimerEvent) :
    ({ waiting (n + 1) a b with reorderingTimeoutEvent := t } : Receiver ℕ).releaseMinSnPacket =
      { waiting (n + 1) a b with reorderingTimeoutEvent := t } := by
  rfl

theorem waiting_releaseInOrder (n a b : ℕ) (t : Option TimerEvent) :
    ({ waiting (n + 1) a b with reorderingTimeoutEvent := t } : Receiver ℕ).releaseInOrderPackets =
      waiting (n + 1) a b := by
  generalize hr : ({ waiting (n + 1) a b with reorderingTimeoutEvent := t } : Receiver ℕ) = r
  have ht : r.totalQueueSize = (n + 1) % 4294967296 := by rw [← hr]; rfl
  have hu : r.updateReorderTimeout = r := by rw [← hr]; rfl
  have hq : r.queue 0 = waitingItem :: List.replicate n waitingItem := by rw [← hr]; rfl
  have hs : r.scanFronts r.cids (maxGmaSn, noCid) = (5, 0) := by rw [← hr]; rfl
  have hx : r.cids.any r.frontExpired = false := by rw [← hr]; rfl
  have he : r.gmaRxExpectedSn = 0 := by rw [← hr]; rfl
  have hp : (5 : ℕ) ≠ r.gmaRxExpectedSn ∧ ¬ snDiff (5 : ℕ) r.gmaRxExpectedSn < 0 := by
    rw [he]; decide
  unfold Receiver.releaseInOrderPackets
  rw [hu]
  by_cases hz : (n + 1) % 4294967296 = 0
  · have hturn : Receiver.releaseInOrderTurn (r, noCid) = .done (r, noCid) := by
      simp [Receiver.releaseInOrderTurn, ht, hz]
    simp only [loop, hturn, Receiver.rescheduleTimeout, ht, hz]
    simp [waiting, hz, ← hr]
  · have h0 : (r.assert (decide ((0 : ℕ) ≠ noCid)) " cannot be the initial value") = r := rfl
    have hturn : Receiver.releaseInOrderTurn (r, noCid) = .done (r, 0) := by
      simp only [Receiver.releaseInOrderTurn, ht, hz, hs, hq, hp, hx, h0]
      rfl
    simp only [loop, hturn, Receiver.rescheduleTimeout, ht, hq]
    rw [if_pos (Nat.pos_of_ne_zero hz), ← hr]
    simp [waiting, hz, maxReorderingTimeout, milliSeconds, waitingItem]

theorem waiting_arrival (n a b : ℕ) :
    (waiting n a b).inOrderDelivery 7 ⟨5, 0, 0⟩ 0 = waiting (n + 1) 0 5 := by
  have hp := waiting_push n a b (waiting n a b).reorderingTimeoutEvent
  have ho : (waiting n a b).outOfOrder 7 ⟨5, 0, 0⟩ 0 = (waiting n a b).push 0 waitingItem := by
    simp [Receiver.outOfOrder, Receiver.lsnTest, Receiver.armStopReorder, waiting, noCid]
    rfl
  have hlast : (waiting (n + 1) a b).recordLast ⟨5, 0, 0⟩ 0 = waiting (n + 1) 0 5 := by
    have : (Function.update (waiting (n + 1) a b).linkParams 0
        { (waiting (n + 1) a b).linkParams 0 with gmaRxLastLocalSn := 0, gmaRxLastSn := 5 }) =
        (waiting (n + 1) 0 5).linkParams := by
      funext cid
      by_cases hc : cid = 0 <;> simp [waiting, hc]
    unfold Receiver.recordLast
    rw [this]
    rfl
  unfold Receiver.inOrderDelivery
  have h5 : (5 : ℕ) ≠ (waiting n a b).gmaRxExpectedSn ∧
      ¬ snDiff (5 : ℕ) (waiting n a b).gmaRxExpectedSn < 0 := by
    show (5 : ℕ) ≠ 0 ∧ ¬ snDiff (5 : ℕ) (0 : ℕ) < 0
    decide
  dsimp only
  rw [if_neg h5.1, if_neg h5.2, ho]
  have hpush : (waiting n a b).push 0 waitingItem =
      { waiting (n + 1) a b with
        reorderingTimeoutEvent := (waiting n a b).reorderingTimeoutEvent } := hp
  rw [hpush, waiting_releaseMinSn, waiting_releaseInOrder, hlast]

def waitingArrival : RxEvent ℕ := .inOrderDelivery 7 ⟨5, 0, 0⟩ 0

theorem waiting_deliver (n a b : ℕ) (received : List (ℕ × GmaHeader)) :
    (RxRun.machine ℕ).next { rx := waiting n a b, received := received } waitingArrival =
      { rx := waiting (n + 1) 0 5, received := received ++ [(7, ⟨5, 0, 0⟩)] } := by
  show RxRun.deliver _ _ _ _ = _
  unfold RxRun.deliver
  rw [waiting_arrival]
  rfl

theorem waiting_reaches {n : ℕ} (hn : 0 < n) : ∃ received,
    (RxRun.machine ℕ).Reaches { rx := waiting 0 255 maxGmaSn }
      (List.replicate n waitingArrival) { rx := waiting n 0 5, received := received } := by
  have henabled : ∀ n a b received, (RxRun.machine ℕ).enabled
      { rx := waiting n a b, received := received } waitingArrival :=
    fun n a b received => ⟨by simp [waiting], rfl⟩
  induction n with
  | zero => omega
  | succ n ih =>
    rw [List.replicate_succ']
    by_cases hz : n = 0
    · refine ⟨[] ++ [(7, ⟨5, 0, 0⟩)], ?_⟩
      rw [hz, ← waiting_deliver 0 255 maxGmaSn []]
      exact Machine.Reaches.nil.snoc _ (henabled 0 255 maxGmaSn [])
    · obtain ⟨received, h⟩ := ih (Nat.pos_of_ne_zero hz)
      refine ⟨received ++ [(7, ⟨5, 0, 0⟩)], ?_⟩
      rw [← waiting_deliver n 0 5 received]
      exact h.snoc _ (henabled n 0 5 received)

theorem waiting_total {n a b : ℕ} {received : List (ℕ × GmaHeader)}
    (h : RxRun.NothingLost { rx := waiting n a b, received := received }) : n % 4294967296 = n := by
  have ht := h.total
  simpa [waiting, Receiver.queue] using ht

theorem waiting_timer {n a b : ℕ} (h : n % 4294967296 = 0) :
    (waiting n a b).reorderingTimeoutEvent = none := if_pos h

theorem reordering_counter_wraps :
    (waiting 0 255 maxGmaSn).Fresh ∧ ∃ s, (RxRun.machine ℕ).Reaches
      { rx := waiting 0 255 maxGmaSn } (List.replicate 4294967296 waitingArrival) s ∧
      s.rx.reorderingTimeoutEvent = none ∧ ¬ s.NothingLost := by
  constructor
  · refine ⟨by simp [waiting], ?_, rfl, rfl, rfl⟩
    intro cid
    by_cases hc : cid = 0 <;> simp [Receiver.queue, waiting, hc]
  · obtain ⟨received, h⟩ := waiting_reaches (n := 4294967296) (by norm_num)
    refine ⟨_, h, waiting_timer (Nat.mod_self _), ?_⟩
    intro hn
    have ht := waiting_total hn
    omega

end NetGymSim.Gma

import NetGymSim.Gma.ReleaseRules

/-!
# What the reordering buffer holds

`held` is everything handed on together with everything still queued. The release
functions rearrange it, an arrival adds its packet once unless the packet is late,
and `m_totalQueueSize` counts the queues as long as fewer than 2^32 packets wait.
A loop of `ReleaseInOrderPackets` that leaves packets behind was left at a front
that has not expired, which makes the delay of the next timeout positive.
-/

namespace NetGymSim.Gma
open NetGymSim.Lib

namespace Receiver
variable {π : Type*}

def held (r : Receiver π) : Multiset (π × GmaHeader) :=
  (r.forwarded.map fun d => (d.packet, d.gmaHeader) : List (π × GmaHeader)) +
    (r.queued.map fun i => (i.packet, i.gmaHeader) : List (π × GmaHeader))

theorem held_release (r : Receiver π) {cid : ℕ} {item : RxQueueItem π}
    {rest : List (RxQueueItem π)} (path : ReleasePath) (hn : r.cids.Nodup) (hc : cid ∈ r.cids)
    (hq : r.queue cid = item :: rest) : (r.release cid item path).held = r.held := by
  have hp := (r.queued_pop hn hc hq).map fun i => (i.packet, i.gmaHeader)
  simp only [held, Multiset.coe_add, Multiset.coe_eq_coe]
  show (List.map _ (r.forwarded ++ [_]) ++ List.map _ (r.pop cid).queued).Perm _
  rw [List.map_append, List.append_assoc]
  exact (hp.symm.append_left _)

theorem length_release (r : Receiver π) {cid : ℕ} {item : RxQueueItem π}
    {rest : List (RxQueueItem π)} (path : ReleasePath) (hn : r.cids.Nodup) (hc : cid ∈ r.cids)
    (hq : r.queue cid = item :: rest) :
    (r.release cid item path).queued.length + 1 = r.queued.length := by
  have h := (r.queued_pop hn hc hq).length_eq
  rw [List.length_cons] at h
  exact h.symm

/-- `m_totalQueueSize` is exact and everything ever taken in is accounted for by `K`. -/
structure Conserves (K : Multiset (π × GmaHeader)) (r : Receiver π) : Prop where
  nodup : r.cids.Nodup
  unregistered : ∀ cid, cid ∉ r.cids → r.queue cid = []
  total : r.totalQueueSize = r.queued.length
  small : r.queued.length < 4294967296
  content : r.held = K
  asserts : ∀ msg ∈ r.failedAsserts, msg = " cannot be the initial value"

namespace Conserves
variable {K : Multiset (π × GmaHeader)} {r : Receiver π}

theorem mem_cids (h : Conserves K r) {cid : ℕ} {item : RxQueueItem π}
    {rest : List (RxQueueItem π)} (hq : r.queue cid = item :: rest) : cid ∈ r.cids := by
  by_contra hn
  rw [h.unregistered cid hn] at hq
  cases hq

theorem front_of_total (h : Conserves K r) (ht : r.totalQueueSize ≠ 0) (cid : ℕ) :
    ∃ item rest, r.queue (r.scanFronts r.cids (maxGmaSn, cid)).2 = item :: rest := by
  rw [h.total] at ht
  obtain ⟨item, hi⟩ := List.exists_mem_of_length_pos (Nat.pos_of_ne_zero ht)
  obtain ⟨d, hd, hmem⟩ := List.mem_flatMap.mp hi
  obtain ⟨item', rest, _, hq, _⟩ := r.scanFronts_front
    (show ((maxGmaSn, cid) : ℕ × ℕ).1 = maxGmaSn from rfl) hd (List.ne_nil_of_mem hmem)
  exact ⟨item', rest, hq⟩

theorem pop_unregistered (h : Conserves K r) (cid : ℕ) :
    ∀ d, d ∉ r.cids → (r.pop cid).queue d = [] := by
  intro d hd
  by_cases hdc : d = cid
  · rw [hdc, pop_queue_same, ← hdc, h.unregistered d hd, List.tail_nil]
  · rw [r.pop_queue_other hdc, h.unregistered d hd]

theorem release (h : Conserves K r) {cid : ℕ} {item : RxQueueItem π}
    {rest : List (RxQueueItem π)} (path : ReleasePath) (hq : r.queue cid = item :: rest) :
    Conserves K (r.release cid item path) := by
  have hc := h.mem_cids hq
  have hl := r.length_release path h.nodup hc hq
  have hs := h.small
  refine ⟨h.nodup, h.pop_unregistered cid, ?_, by omega,
    (r.held_release path h.nodup hc hq).trans h.content, h.asserts⟩
  show decr32 r.totalQueueSize = _
  rw [h.total, decr32]
  omega

theorem releaseLate (h : Conserves K r) {cid : ℕ} {item : RxQueueItem π}
    {rest : List (RxQueueItem π)} (hq : r.queue cid = item :: rest) :
    Conserves K (r.releaseLate cid item) := by
  have hr := h.release .late hq
  exact ⟨hr.nodup, hr.unregistered, hr.total, hr.small, hr.content, hr.asserts⟩

theorem assertInitial (h : Conserves K r) (cond : Bool) :
    Conserves K (r.assert cond " cannot be the initial value") := by
  unfold Receiver.assert
  split_ifs
  · exact h
  · refine ⟨h.nodup, h.unregistered, h.total, h.small, h.content, ?_⟩
    intro msg hm
    rcases List.mem_append.mp hm with hm | hm
    · exact h.asserts msg hm
    · exact List.mem_singleton.mp hm

theorem releaseAllPackets (h : Conserves K r) :
    Conserves K r.releaseAllPackets ∧ r.releaseAllPackets.queued.length = 0 := by
  refine loop_spec (P := Conserves K)
    (Q := fun s => Conserves K s ∧ s.queued.length = 0) (fun s => s.queued.length)
    ?_ ?_ _ h (Nat.lt_succ_self _)
  · intro s s' hs hb
    unfold releaseAllTurn at hb
    by_cases ht : s.totalQueueSize = 0
    · simp [ht] at hb
    obtain ⟨item, rest, hq⟩ := hs.front_of_total ht noCid
    have ha := hs.assertInitial (decide ((s.scanFronts s.cids (maxGmaSn, noCid)).2 ≠ noCid))
    have hqa : (s.assert (decide ((s.scanFronts s.cids (maxGmaSn, noCid)).2 ≠ noCid))
        " cannot be the initial value").queue (s.scanFronts s.cids (maxGmaSn, noCid)).2 =
        item :: rest := by rw [assert_queue, hq]
    simp only [ht, ↓reduceIte, hqa] at hb
    obtain rfl := Turn.again.inj hb
    have hl := length_release _ .drained ha.nodup (ha.mem_cids hqa) hqa
    refine ⟨ha.release .drained hqa, ?_⟩
    have hsame : (s.assert (decide ((s.scanFronts s.cids (maxGmaSn, noCid)).2 ≠ noCid))
        " cannot be the initial value").queued.length = s.queued.length := by
      rw [← ha.total, ← hs.total]; unfold Receiver.assert; split_ifs <;> rfl
    omega
  · intro s s' hs hb
    unfold releaseAllTurn at hb
    by_cases ht : s.totalQueueSize = 0
    · rw [if_pos ht] at hb
      obtain rfl := Turn.done.inj hb
      exact ⟨hs, by rw [← hs.total, ht]⟩
    · obtain ⟨item, rest, hq⟩ := hs.front_of_total ht noCid
      simp [ht, hq] at hb

theorem stopReordering (h : Conserves K r) (reason : ℕ) :
    Conserves K (r.stopReordering reason) ∧ (r.stopReordering reason).queued.length = 0 := by
  refine releaseAllPackets ?_
  split_ifs
  · exact ⟨h.nodup, h.unregistered, h.total, h.small, h.content, h.asserts⟩
  · exact h

end Conserves

theorem conserves_keeps (K : Multiset (π × GmaHeader)) : Keeps (Conserves (π := π) K) where
  unregistered _ h := h.unregistered
  failed r h := h.assertInitial (r := r) false
  counter _ _ h := ⟨h.nodup, h.unregistered, h.total, h.small, h.content, h.asserts⟩
  timeout _ _ h := ⟨h.nodup, h.unregistered, h.total, h.small, h.content, h.asserts⟩
  updateTime _ _ h := ⟨h.nodup, h.unregistered, h.total, h.small, h.content, h.asserts⟩
  timer _ _ h := ⟨h.nodup, h.unregistered, h.total, h.small, h.content, h.asserts⟩
  minSn _ _ _ _ h _ _ hq _ := h.release .minSn hq
  minSnLate _ _ _ _ h _ _ hq _ := h.releaseLate hq
  inOrder _ _ _ _ _ path h _ _ hq _ _ := h.release path hq
  late _ _ _ _ _ h _ _ hq _ _ _ := h.releaseLate hq
  stop _ _ _ _ _ _ _ _ h := (h.stopReordering 0).1

theorem releaseInOrderTurn_shrinks {K : Multiset (π × GmaHeader)} {s s' : Receiver π × ℕ}
    (h : Conserves K s.1) (hb : releaseInOrderTurn s = .again s') :
    s'.1.queued.length < s.1.queued.length := by
  obtain ⟨r, cid⟩ := s
  unfold releaseInOrderTurn at hb
  dsimp only at hb h ⊢
  by_cases ht : r.totalQueueSize = 0
  · simp [ht] at hb
  rw [if_neg ht] at hb
  generalize r.scanFronts r.cids (maxGmaSn, cid) = best at hb
  cases hq : r.queue best.2 with
  | nil => simp [hq] at hb
  | cons item rest =>
    have ha := h.assertInitial (decide (best.2 ≠ noCid))
    have hqa := (r.assert_queue (decide (best.2 ≠ noCid)) " cannot be the initial value"
      best.2).trans hq
    have hla : (r.assert (decide (best.2 ≠ noCid)) " cannot be the initial value").queued.length =
        r.queued.length := by
      rw [← ha.total, ← h.total]
      unfold Receiver.assert
      split_ifs <;> rfl
    simp only [hq] at hb
    generalize r.assert (decide (best.2 ≠ noCid)) " cannot be the initial value" = a
      at ha hqa hla hb
    have hl := a.length_release .queued ha.nodup (ha.mem_cids hqa) hqa
    split_ifs at hb
    · obtain rfl := Turn.again.inj hb
      have hz := ((ha.release .queued hqa).stopReordering 0).2
      show ((a.release best.2 item .queued).stopReordering 0).queued.length < _
      omega
    · obtain rfl := Turn.again.inj hb
      show (a.release best.2 item .queued).queued.length < _
      omega
    · obtain rfl := Turn.again.inj hb
      have hl := r.length_release .late h.nodup (h.mem_cids hq) hq
      show (r.release best.2 item .late).queued.length < _
      omega
    all_goals
      obtain rfl := Turn.again.inj hb
      show (a.release best.2 item .queued).queued.length < _
      omega

theorem releaseInOrderTurn_leaves {K : Multiset (π × GmaHeader)} {s s' : Receiver π × ℕ}
    (h : Conserves K s.1) (hb : releaseInOrderTurn s = .done s') :
    s'.1.totalQueueSize = 0 ∨
      ∃ item rest, s'.1.queue s'.2 = item :: rest ∧
        s'.1.now < item.receivedTime + s'.1.reorderingTimeout := by
  obtain ⟨r, cid⟩ := s
  unfold releaseInOrderTurn at hb
  dsimp only at hb h
  by_cases ht : r.totalQueueSize = 0
  · rw [if_pos ht] at hb
    obtain rfl := Turn.done.inj hb
    exact .inl ht
  rw [if_neg ht] at hb
  obtain ⟨item, rest, hq⟩ := h.front_of_total ht cid
  have hmem := h.mem_cids hq
  generalize r.scanFronts r.cids (maxGmaSn, cid) = best at hb hq hmem
  have hqa := (r.assert_queue (decide (best.2 ≠ noCid)) " cannot be the initial value"
    best.2).trans hq
  have hca := r.assert_cids (decide (best.2 ≠ noCid)) " cannot be the initial value"
  simp only [hq] at hb
  generalize r.assert (decide (best.2 ≠ noCid)) " cannot be the initial value" = a at hqa hca hb
  split_ifs at hb with _ _ _ _ hany
  obtain rfl := Turn.done.inj hb
  refine .inr ⟨item, rest, hqa, ?_⟩
  by_contra hle
  refine hany (List.any_eq_true.mpr ⟨best.2, hca ▸ hmem, ?_⟩)
  simpa [frontExpired, hqa] using hle

def Armed (r : Receiver π) : Prop :=
  r.totalQueueSize = 0 ∨ ∃ e, r.reorderingTimeoutEvent = some e ∧ 0 < e.delay

namespace Conserves
variable {K : Multiset (π × GmaHeader)} {r : Receiver π}

theorem releaseInOrderPackets (h : Conserves K r) :
    Conserves K r.releaseInOrderPackets ∧ Armed r.releaseInOrderPackets := by
  have k := conserves_keeps (π := π) K
  have hl := loop_spec (b := releaseInOrderTurn) (P := fun s => Conserves K s.1)
    (Q := fun s => s.1.totalQueueSize = 0 ∨ ∃ item rest, s.1.queue s.2 = item :: rest ∧
      s.1.now < item.receivedTime + s.1.reorderingTimeout) (fun s => s.1.queued.length)
    (fun s s' hs hb => ⟨k.releaseInOrderTurn_again hs hb, releaseInOrderTurn_shrinks hs hb⟩)
    (fun s s' hs hb => releaseInOrderTurn_leaves hs hb) (r.queued.length + 1)
    (s := (r.updateReorderTimeout, noCid)) (k.updateReorderTimeout h) (by
      show r.updateReorderTimeout.queued.length < r.queued.length + 1
      rw [← (k.updateReorderTimeout h).total, ← h.total]
      obtain ⟨t, ht⟩ := r.updateReorderTimeout_eq
      rw [ht]
      exact Nat.lt_succ_self _)
  refine ⟨k.releaseInOrderPackets h, ?_⟩
  unfold Receiver.releaseInOrderPackets
  generalize loop releaseInOrderTurn (r.queued.length + 1) (r.updateReorderTimeout, noCid) = s at hl
  dsimp only
  unfold rescheduleTimeout
  rcases hl with ht | ⟨item, rest, hq, hfresh⟩
  · exact .inl (by simp [ht])
  · by_cases ht : s.1.totalQueueSize > 0
    · rw [if_pos ht, hq]
      refine .inr ⟨_, rfl, ?_⟩
      show 0 < s.1.reorderingTimeout + milliSeconds 1 - (s.1.now - item.receivedTime)
      have : milliSeconds 1 = 1000000 := rfl
      omega
    · rw [if_neg ht]
      exact .inl (by show s.1.totalQueueSize = 0; omega)

theorem reorderingTimeoutFires (h : Conserves K r) :
    Conserves K r.reorderingTimeoutFires ∧ Armed r.reorderingTimeoutFires := by
  have ht := ((conserves_keeps K).timer r none h : Conserves K _).releaseInOrderPackets
  exact ⟨(conserves_keeps K).reorderingTimeoutFires h, ht.2⟩

theorem enqueue (h : Conserves K r) (packet : π) (gmaHeader : GmaHeader) {cid : ℕ}
    (inOrder : Bool) (hc : cid ∈ r.cids) (hs : r.queued.length + 1 < 4294967296) :
    Conserves ((packet, gmaHeader) ::ₘ K) (r.enqueue packet gmaHeader cid inOrder) := by
  have hp := r.queued_push ⟨packet, gmaHeader, inOrder, r.now⟩ h.nodup hc
  have hl := hp.length_eq
  rw [List.length_cons] at hl
  refine ⟨h.nodup, ?_, ?_, by unfold Receiver.enqueue; omega, ?_, h.asserts⟩
  · intro d hd
    have hdc : d ≠ cid := fun e => hd (e ▸ hc)
    exact (r.push_queue_other _ hdc).trans (h.unregistered d hd)
  · show incr32 r.totalQueueSize = (r.push cid _).queued.length
    rw [h.total, hl, incr32, Nat.mod_eq_of_lt (by omega)]
  · rw [← h.content]
    have hm := (hp.map fun i => (i.packet, i.gmaHeader)).append_left
      (r.forwarded.map fun d => (d.packet, d.gmaHeader))
    simp only [held, Multiset.coe_add, Multiset.cons_coe, Multiset.coe_eq_coe]
    exact hm.trans List.perm_middle

theorem measureAndForward (h : Conserves K r) (packet : π) (gmaHeader : GmaHeader)
    (path : ReleasePath) (sn : ℕ) :
    Conserves ((packet, gmaHeader) ::ₘ K)
      ((r.measureAndForward packet gmaHeader path).expect sn) := by
  refine ⟨h.nodup, h.unregistered, h.total, h.small, ?_, h.asserts⟩
  rw [← h.content]
  simp only [held, Multiset.coe_add, Multiset.cons_coe, Multiset.coe_eq_coe]
  show (List.map _ (r.forwarded ++ [_]) ++ List.map _ r.queued).Perm _
  rw [List.map_append, List.append_assoc]
  exact List.perm_middle

theorem stopIfNewLink (h : Conserves K r) (ha : Armed r) (cid : ℕ) :
    Conserves K (r.stopIfNewLink cid) ∧ Armed (r.stopIfNewLink cid) := by
  unfold Receiver.stopIfNewLink
  split_ifs
  · have hs := h.stopReordering 0
    exact ⟨hs.1, .inl (by rw [hs.1.total, hs.2])⟩
  · exact ⟨h, ha⟩

theorem armStopReorder (h : Conserves K r) (cid : ℕ) : Conserves K (r.armStopReorder cid) := by
  obtain ⟨t, e, he⟩ := r.armStopReorder_eq cid
  rw [he]
  exact ⟨h.nodup, h.unregistered, h.total, h.small, h.content, h.asserts⟩

end Conserves
end Receiver
end NetGymSim.Gma

import NetGymSim.Gma.Reordering

/-!
# Preservation rules for the release paths

`Keeps P` asks for one obligation for each branch that hands a packet on and for
each field the release functions write besides. From it `ReleaseMinSnPacket`,
`ReleaseInOrderPackets` and `ReorderingTimeout` keep `P`, whatever the number of
turns their loops take.
-/

namespace NetGymSim.Gma
open NetGymSim.Lib

/-- The branches of `ReleaseInOrderPackets` that move the expected SN, with their guards. -/
def InOrderPath {π : Type*} (r : Receiver π) (minSn : ℕ) (item : RxQueueItem π) :
    ReleasePath → Prop
  | .queued => minSn = r.gmaRxExpectedSn
  | .marked => minSn ≠ r.gmaRxExpectedSn ∧ 0 ≤ snDiff minSn r.gmaRxExpectedSn ∧ item.inOrder
  | .expired => minSn ≠ r.gmaRxExpectedSn ∧ 0 ≤ snDiff minSn r.gmaRxExpectedSn ∧
      r.cids.any r.frontExpired
  | _ => False

structure Keeps {π : Type*} (P : Receiver π → Prop) : Prop where
  unregistered : ∀ r, P r → ∀ cid, cid ∉ r.cids → r.queue cid = []
  failed : ∀ r, P r →
    P { r with failedAsserts := r.failedAsserts ++ [" cannot be the initial value"] }
  counter : ∀ r n, P r → P { r with reorderingTimeoutCounter := n }
  timeout : ∀ r t, P r → P { r with reorderingTimeout := t }
  updateTime : ∀ r t, P r → P { r with nextReorderingUpdateTime := t }
  timer : ∀ r e, P r → P { r with reorderingTimeoutEvent := e }
  minSn : ∀ r item rest best, P r → r.scanAllFronts r.cids (maxGmaSn, noCid) = some best →
    best.1 ≠ maxGmaSn → r.queue best.2 = item :: rest →
    0 ≤ snDiff item.gmaHeader.sequenceNumber r.gmaRxExpectedSn → P (r.release best.2 item .minSn)
  minSnLate : ∀ r item rest best, P r → r.scanAllFronts r.cids (maxGmaSn, noCid) = some best →
    best.1 ≠ maxGmaSn → r.queue best.2 = item :: rest →
    snDiff item.gmaHeader.sequenceNumber r.gmaRxExpectedSn < 0 → P (r.releaseLate best.2 item)
  inOrder : ∀ r item rest best cid path, P r → r.scanFronts r.cids (maxGmaSn, cid) = best →
    best.2 ∈ r.cids → r.queue best.2 = item :: rest → best.1 = item.gmaHeader.sequenceNumber →
    InOrderPath r best.1 item path → P (r.release best.2 item path)
  late : ∀ r item rest best cid, P r → r.scanFronts r.cids (maxGmaSn, cid) = best →
    best.2 ∈ r.cids → r.queue best.2 = item :: rest → best.1 = item.gmaHeader.sequenceNumber →
    best.1 ≠ r.gmaRxExpectedSn → snDiff best.1 r.gmaRxExpectedSn < 0 →
    P (r.releaseLate best.2 item)
  stop : ∀ r cid item rest, P r → cid ∈ r.cids → r.queue cid = item :: rest →
    (r.release cid item .queued).newLinkCid = item.gmaHeader.connectionId →
    P (r.release cid item .queued) → P ((r.release cid item .queued).stopReordering 0)

namespace Keeps
variable {π : Type*} {P : Receiver π → Prop}

theorem assertInitial (k : Keeps P) {r : Receiver π} (cond : Bool) (h : P r) :
    P (r.assert cond " cannot be the initial value") := by
  unfold Receiver.assert
  split_ifs
  · exact h
  · exact k.failed r h

theorem releaseMinSnTurn_again (k : Keeps P) {r r' : Receiver π} (h : P r)
    (hb : r.releaseMinSnTurn = .again r') : P r' := by
  unfold Receiver.releaseMinSnTurn at hb
  cases hs : r.scanAllFronts r.cids (maxGmaSn, noCid) with
  | none => simp [hs] at hb
  | some best =>
    have ha := k.assertInitial (decide (best.2 ≠ noCid)) h
    have hs' : (r.assert (decide (best.2 ≠ noCid)) " cannot be the initial value").scanAllFronts
        (r.assert (decide (best.2 ≠ noCid)) " cannot be the initial value").cids
        (maxGmaSn, noCid) = some best := by simpa using hs
    simp only [hs] at hb
    generalize r.assert (decide (best.2 ≠ noCid)) " cannot be the initial value" = a at ha hs' hb
    split_ifs at hb with hmax
    cases hq : a.queue best.2 with
    | nil => simp [hq] at hb
    | cons item rest =>
      simp only [hq] at hb
      split_ifs at hb with hd
      · obtain rfl := Turn.again.inj hb
        exact k.minSn a item rest best ha hs' hmax hq hd
      · obtain rfl := Turn.again.inj hb
        exact k.minSnLate a item rest best ha hs' hmax hq (by omega)

theorem releaseMinSnTurn_done (k : Keeps P) {r r' : Receiver π} (h : P r)
    (hb : r.releaseMinSnTurn = .done r') : P r' := by
  unfold Receiver.releaseMinSnTurn at hb
  cases hs : r.scanAllFronts r.cids (maxGmaSn, noCid) with
  | none => simp only [hs] at hb; obtain rfl := Turn.done.inj hb; exact h
  | some best =>
    have ha := k.assertInitial (decide (best.2 ≠ noCid)) h
    simp only [hs] at hb
    generalize r.assert (decide (best.2 ≠ noCid)) " cannot be the initial value" = a at ha hb
    split_ifs at hb with hmax
    · obtain rfl := Turn.done.inj hb; exact h
    · cases hq : a.queue best.2 with
      | nil => simp only [hq] at hb; obtain rfl := Turn.done.inj hb; exact ha
      | cons item rest => simp only [hq] at hb; split_ifs at hb

theorem releaseMinSnPacket (k : Keeps P) {r : Receiver π} (h : P r) : P r.releaseMinSnPacket :=
  loop_invariant (fun _ _ hP hb => k.releaseMinSnTurn_again hP hb)
    (fun _ _ hP hb => k.releaseMinSnTurn_done hP hb) _ h

theorem updateReorderTimeout (k : Keeps P) {r : Receiver π} (h : P r) :
    P r.updateReorderTimeout := by
  obtain ⟨t, ht⟩ := r.updateReorderTimeout_eq
  rw [ht]
  exact k.timeout r t h

theorem front_of_scan (k : Keeps P) {r : Receiver π} (h : P r) {cid : ℕ} {item : RxQueueItem π}
    {rest : List (RxQueueItem π)}
    (hq : r.queue (r.scanFronts r.cids (maxGmaSn, cid)).2 = item :: rest) :
    (r.scanFronts r.cids (maxGmaSn, cid)).2 ∈ r.cids ∧
      (r.scanFronts r.cids (maxGmaSn, cid)).1 = item.gmaHeader.sequenceNumber := by
  have hmem : (r.scanFronts r.cids (maxGmaSn, cid)).2 ∈ r.cids := by
    by_contra hn
    rw [k.unregistered r h _ hn] at hq
    cases hq
  obtain ⟨item', rest', _, hq', hsn⟩ := r.scanFronts_front
    (show ((maxGmaSn, cid) : ℕ × ℕ).1 = maxGmaSn from rfl) hmem (by rw [hq]; simp)
  rw [hq] at hq'
  exact ⟨hmem, by rw [hsn, (List.cons.inj hq').1]⟩

theorem releaseInOrderTurn_again (k : Keeps P) {s s' : Receiver π × ℕ} (h : P s.1)
    (hb : Receiver.releaseInOrderTurn s = .again s') : P s'.1 := by
  obtain ⟨r, cid⟩ := s
  unfold Receiver.releaseInOrderTurn at hb
  dsimp only at hb h
  by_cases ht : r.totalQueueSize = 0
  · simp [ht] at hb
  rw [if_neg ht] at hb
  generalize hbest : r.scanFronts r.cids (maxGmaSn, cid) = best at hb
  cases hq : r.queue best.2 with
  | nil => simp [hq] at hb
  | cons item rest =>
    have hfront : r.queue (r.scanFronts r.cids (maxGmaSn, cid)).2 = item :: rest := by
      rw [hbest]
      exact hq
    obtain ⟨hmem, hsn⟩ := k.front_of_scan h hfront
    have ha := k.assertInitial (decide (best.2 ≠ noCid)) h
    rw [hbest] at hmem hsn
    simp only [hq] at hb
    have hs' := r.assert_scanFronts (decide (best.2 ≠ noCid)) " cannot be the initial value" r.cids
      (maxGmaSn, cid)
    have hq' := r.assert_queue (decide (best.2 ≠ noCid)) " cannot be the initial value" best.2
    have hm' := r.assert_cids (decide (best.2 ≠ noCid)) " cannot be the initial value"
    have he := r.assert_expectedSn (decide (best.2 ≠ noCid)) " cannot be the initial value"
    generalize r.assert (decide (best.2 ≠ noCid)) " cannot be the initial value" = a
      at ha hs' hq' hm' he hb
    rw [hbest, ← hm'] at hs'
    rw [hq] at hq'
    replace hm' : best.2 ∈ a.cids := hm' ▸ hmem
    split_ifs at hb with hexp hnew hlate hmark hany
    · obtain rfl := Turn.again.inj hb
      exact k.stop a best.2 item rest ha hm' hq' hnew
        (k.inOrder a item rest best cid .queued ha hs' hm' hq' hsn (hexp.trans he.symm))
    · obtain rfl := Turn.again.inj hb
      exact k.inOrder a item rest best cid .queued ha hs' hm' hq' hsn (hexp.trans he.symm)
    · obtain rfl := Turn.again.inj hb
      exact k.late r item rest best cid h hbest hmem hq hsn hexp hlate
    · obtain rfl := Turn.again.inj hb
      exact k.inOrder a item rest best cid .marked ha hs' hm' hq' hsn
        ⟨by rwa [he], by rw [he]; omega, hmark⟩
    · obtain rfl := Turn.again.inj hb
      exact k.inOrder _ item rest best cid .expired (k.counter a _ ha)
        ((Receiver.scanFronts_congr (r := a) (s := { a with
          reorderingTimeoutCounter := a.reorderingTimeoutCounter + 1 }) (fun _ => rfl) _ _).trans
          hs') hm' hq' hsn
        ⟨by show best.1 ≠ a.gmaRxExpectedSn; rwa [he],
          by show 0 ≤ snDiff best.1 a.gmaRxExpectedSn; rw [he]; omega, hany⟩

theorem releaseInOrderTurn_done (k : Keeps P) {s s' : Receiver π × ℕ} (h : P s.1)
    (hb : Receiver.releaseInOrderTurn s = .done s') : P s'.1 := by
  obtain ⟨r, cid⟩ := s
  unfold Receiver.releaseInOrderTurn at hb
  dsimp only at hb h
  have ha := k.assertInitial
    (decide ((r.scanFronts r.cids (maxGmaSn, cid)).2 ≠ noCid)) h
  by_cases ht : r.totalQueueSize = 0
  · rw [if_pos ht] at hb
    obtain rfl := Turn.done.inj hb; exact h
  · rw [if_neg ht] at hb
    cases hq : r.queue (r.scanFronts r.cids (maxGmaSn, cid)).2 with
    | nil => simp only [hq] at hb; obtain rfl := Turn.done.inj hb; exact h
    | cons item rest =>
      simp only [hq] at hb
      split_ifs at hb
      obtain rfl := Turn.done.inj hb
      exact ha

theorem rescheduleTimeout (k : Keeps P) {r : Receiver π} (cid : ℕ) (h : P r) :
    P (r.rescheduleTimeout cid) := by
  unfold Receiver.rescheduleTimeout
  split
  · cases r.queue cid <;> exact k.timer r _ h
  · exact k.timer r _ h

theorem releaseInOrderPackets (k : Keeps P) {r : Receiver π} (h : P r) :
    P r.releaseInOrderPackets := by
  have hl : P (loop Receiver.releaseInOrderTurn (r.queued.length + 1)
      (r.updateReorderTimeout, noCid)).1 :=
    loop_invariant (P := fun s : Receiver π × ℕ => P s.1)
      (fun _ _ hP hb => k.releaseInOrderTurn_again hP hb)
      (fun _ _ hP hb => k.releaseInOrderTurn_done hP hb) _ (k.updateReorderTimeout h)
  exact k.rescheduleTimeout _ hl

theorem reorderingTimeoutFires (k : Keeps P) {r : Receiver π} (h : P r) :
    P r.reorderingTimeoutFires := by
  have h1 := k.releaseInOrderPackets (k.timer r none h)
  have h2 := k.timeout _ (max minReorderingTimeout (min maxReorderingTimeout
    (2 * ({ r with reorderingTimeoutEvent := none }).releaseInOrderPackets.reorderingTimeout))) h1
  exact k.updateTime _ _ h2

theorem inOrderDelivery (k : Keeps P) (noSteer : ∀ r, P r → r.newLinkCid = noCid)
    {r : Receiver π} (packet : π) (gmaHeader : GmaHeader) {cid : ℕ} (hcid : cid ≠ noCid)
    (hnew : r.newLinkCid = noCid)
    (expected : gmaHeader.sequenceNumber = r.gmaRxExpectedSn →
      P ((r.measureAndForward packet gmaHeader .expected).expect r.gmaRxExpectedSn))
    (late : snDiff gmaHeader.sequenceNumber r.gmaRxExpectedSn < 0 → P r)
    (lost : gmaHeader.sequenceNumber ≠ r.gmaRxExpectedSn →
      0 ≤ snDiff gmaHeader.sequenceNumber r.gmaRxExpectedSn →
      r.lsnTest gmaHeader cid → r.queue cid = [] →
      P ((r.measureAndForward packet gmaHeader .lsnTest).expect gmaHeader.sequenceNumber))
    (marked : gmaHeader.sequenceNumber ≠ r.gmaRxExpectedSn →
      0 ≤ snDiff gmaHeader.sequenceNumber r.gmaRxExpectedSn →
      r.lsnTest gmaHeader cid → r.queue cid ≠ [] → ∀ msgs,
      P ({ r with failedAsserts := msgs }.enqueue packet gmaHeader cid true))
    (unmarked : gmaHeader.sequenceNumber ≠ r.gmaRxExpectedSn →
      0 ≤ snDiff gmaHeader.sequenceNumber r.gmaRxExpectedSn →
      P (r.enqueue packet gmaHeader cid false)) :
    ∃ r', P r' ∧ r.inOrderDelivery packet gmaHeader cid = r'.recordLast gmaHeader cid := by
  have stay : ∀ r', P r' → r'.stopIfNewLink cid = r' := by
    intro r' h
    unfold Receiver.stopIfNewLink
    rw [if_neg (by rw [noSteer r' h]; exact Ne.symm hcid)]
  unfold Receiver.inOrderDelivery
  refine ⟨_, ?_, rfl⟩
  by_cases hexp : gmaHeader.sequenceNumber = r.gmaRxExpectedSn
  · rw [if_pos hexp]
    have h := k.releaseInOrderPackets (expected hexp)
    exact (stay _ h).symm ▸ h
  rw [if_neg hexp]
  by_cases hlate : snDiff gmaHeader.sequenceNumber r.gmaRxExpectedSn < 0
  · rw [if_pos hlate]
    exact late hlate
  rw [if_neg hlate]
  refine k.releaseInOrderPackets (k.releaseMinSnPacket ?_)
  unfold Receiver.outOfOrder
  split_ifs with hl hq
  · have h := k.releaseInOrderPackets (lost hexp (by omega) hl (List.length_eq_zero_iff.mp hq))
    exact (stay _ h).symm ▸ h
  · have hm := marked hexp (by omega) hl (fun e => hq (by rw [e]; rfl))
    dsimp only
    unfold Receiver.assert
    split_ifs <;> exact hm _
  · have harm : r.armStopReorder cid = r := by
      unfold Receiver.armStopReorder
      rw [if_neg (by rw [hnew]; exact fun h => hcid h.1.symm)]
    rw [harm]
    exact unmarked hexp (by omega)

end Keeps
end NetGymSim.Gma

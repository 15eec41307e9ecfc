import NetGymSim.Gma.Reordering
import NetGymSim.Lib.SentinelScan

/-!
# The serially smallest front

The walks over the queue fronts are minimum scans whose sentinel is the SN
0xFFFFFF. When the fronts lie in one half of the SN space one SN is serially
least. A walk takes a packet with it unless it is 0xFFFFFF; then the walks of
`ReleaseInOrderPackets` and `ReleaseAllPackets` still do if the last queue that is
not empty starts with it, and `ReleaseMinSnPacket` never does.
-/

namespace NetGymSim.Gma
open NetGymSim.Lib

theorem snDiff_swap (x1 x2 : ℤ) : snDiff x2 x1 = -snDiff x1 x2 :=
  wrapDiff_swap 8388608 x1 x2 (by decide)

theorem snDiff_eq_zero {x1 x2 : ℕ} (h1 : x1 < 16777216) (h2 : x2 < 16777216)
    (h : snDiff x1 x2 = 0) : x1 = x2 := by
  have hzero : wrapDiff 8388608 x1 x2 = 0 := h
  have heq := wrapDiff_eq_zero ⟨by omega, by omega⟩ ⟨by omega, by omega⟩ hzero
  omega

def snBefore (sn minSn : ℕ) : Prop := snDiff minSn sn > 0

instance : DecidableRel snBefore := fun sn minSn =>
  inferInstanceAs (Decidable (snDiff minSn sn > 0))

/-- All numbers lie less than half the SN space ahead of one of them or of some other one. -/
def HalfWindow (sns : List ℕ) : Prop :=
  ∃ base < 16777216, ∀ sn ∈ sns, sn < 16777216 ∧ (sn + (16777216 - base)) % 16777216 < 8388608

instance (sns : List ℕ) : Decidable (HalfWindow sns) :=
  inferInstanceAs (Decidable (∃ base < 16777216, ∀ sn ∈ sns,
    sn < 16777216 ∧ (sn + (16777216 - base)) % 16777216 < 8388608))

theorem HalfWindow.lt {sns : List ℕ} (h : HalfWindow sns) {sn : ℕ} (hsn : sn ∈ sns) :
    sn < 16777216 := by
  obtain ⟨base, _, hall⟩ := h
  exact (hall sn hsn).1

theorem HalfWindow.exists_least {sns : List ℕ} (h : HalfWindow sns) (hne : sns ≠ []) :
    ∃ m ∈ sns, ∀ sn ∈ sns, snDiff m sn ≤ 0 := by
  obtain ⟨base, hbase, hall⟩ := h
  let ahead : ℕ → ℕ := fun sn => (sn + (16777216 - base)) % 16777216
  obtain ⟨m, hm, hmin⟩ := sns.toFinset.exists_min_image ahead
    (by simpa using hne)
  have hm' : m ∈ sns := List.mem_toFinset.mp hm
  refine ⟨m, hm', ?_⟩
  intro sn hsn
  have hle : ahead m ≤ ahead sn := hmin sn (List.mem_toFinset.mpr hsn)
  have hsmall := (hall sn hsn).2
  -- both numbers are residues of the base moved ahead
  have hres : ∀ x ∈ sns, (x : ℤ) = ((base + ahead x : ℕ) : ℤ) % (2 * 8388608) := by
    intro x hx
    have := (hall x hx).1
    simp only [ahead]
    omega
  have hdiff : snDiff m sn = ((base + ahead m : ℕ) : ℤ) - ((base + ahead sn : ℕ) : ℤ) := by
    rw [hres m hm', hres sn hsn]
    apply wrapDiff_residues (by decide)
    all_goals simp only [ahead] at hle ⊢; omega
  rw [hdiff]
  omega

theorem least_iff {sns : List ℕ} (hlt : ∀ sn ∈ sns, sn < 16777216) (m : ℕ) :
    SentinelScan.Least snBefore sns m ↔ m ∈ sns ∧ ∀ sn ∈ sns, snDiff m sn ≤ 0 := by
  constructor
  · rintro ⟨hm, hfirst⟩
    refine ⟨hm, ?_⟩
    intro sn hsn
    by_cases h : sn = m
    · rw [h]
      exact (wrapDiff_self 8388608 m (by decide)).le
    · exact not_lt.mp (hfirst sn hsn h).2
  · rintro ⟨hm, hle⟩
    refine ⟨hm, ?_⟩
    intro sn hsn hne
    have h0 : snDiff m sn ≠ 0 := fun h => hne (snDiff_eq_zero (hlt m hm) (hlt sn hsn) h).symm
    have hneg := hle sn hsn
    have hswap := snDiff_swap m sn
    exact ⟨by unfold snBefore; omega, by unfold snBefore; omega⟩

namespace Receiver
variable {π : Type*}

def frontSn (r : Receiver π) (cid : ℕ) : Option ℕ :=
  (r.queue cid).head?.map fun item => item.gmaHeader.sequenceNumber

def frontSns (r : Receiver π) : List ℕ := r.cids.filterMap r.frontSn

theorem scanFronts_scan (r : Receiver π) (cids : List ℕ) (best : ℕ × ℕ) :
    (r.scanFronts cids best).1 =
      SentinelScan.scan maxGmaSn snBefore (cids.filterMap r.frontSn) best.1 := by
  induction cids generalizing best with
  | nil => rfl
  | cons cid cids ih =>
    unfold scanFronts
    cases hq : r.queue cid with
    | nil =>
      have hf : r.frontSn cid = none := by rw [frontSn, hq]; rfl
      rw [List.filterMap_cons_none hf]
      exact ih best
    | cons item rest =>
      have hf : r.frontSn cid = some item.gmaHeader.sequenceNumber := by rw [frontSn, hq]; rfl
      rw [List.filterMap_cons_some hf]
      show _ = SentinelScan.scan maxGmaSn snBefore _
        (SentinelScan.pick maxGmaSn snBefore best.1 item.gmaHeader.sequenceNumber)
      dsimp only
      by_cases hr : replaces best.1 item
      · have hpick : SentinelScan.pick maxGmaSn snBefore best.1 item.gmaHeader.sequenceNumber =
            item.gmaHeader.sequenceNumber := if_pos (of_decide_eq_true hr)
        rw [if_pos hr, hpick]
        exact ih _
      · have hpick : SentinelScan.pick maxGmaSn snBefore best.1 item.gmaHeader.sequenceNumber =
            best.1 := if_neg fun h => hr (decide_eq_true h)
        rw [if_neg hr, hpick]
        exact ih _

theorem mem_frontSns (r : Receiver π) {sn : ℕ} : sn ∈ r.frontSns ↔
    ∃ cid ∈ r.cids, ∃ item rest, r.queue cid = item :: rest ∧
      item.gmaHeader.sequenceNumber = sn := by
  simp only [frontSns, List.mem_filterMap]
  refine exists_congr fun cid => and_congr_right fun _ => ?_
  cases hq : r.queue cid with
  | nil => simp [frontSn, hq]
  | cons item rest => simp [frontSn, hq]

/-- `item` waits at the front of the queue of `cid`, and no front is serially before it. -/
structure Foremost (r : Receiver π) (cid : ℕ) (item : RxQueueItem π) : Prop where
  registered : cid ∈ r.cids
  front : (r.queue cid).head? = some item
  least : ∀ sn ∈ r.frontSns, snDiff item.gmaHeader.sequenceNumber sn ≤ 0

/-- The step from `r` to `r'` takes `item` off the queue of `cid` and hands it on first. -/
def HandsOn (r r' : Receiver π) (cid : ℕ) (item : RxQueueItem π) : Prop :=
  (∃ path later, r'.forwarded =
    r.forwarded ++ ⟨item.packet, item.gmaHeader, path, r.gmaRxExpectedSn⟩ :: later) ∧
  r'.queue cid <:+ (r.queue cid).tail

def DequeuesLeast (r r' : Receiver π) : Prop :=
  ∃ cid item, r.Foremost cid item ∧ r.HandsOn r' cid item

def MinSnLeast (r : Receiver π) : Prop :=
  (∀ cid ∈ r.cids, r.linkUp cid → r.queue cid ≠ []) →
    ∃ r', r.releaseMinSnTurn = .again r' ∧ r.DequeuesLeast r'

/-- A turn of `ReleaseInOrderPackets`: the packet it waits for, when it ends the loop, is the
one it would have to take. -/
def InOrderLeast (r : Receiver π) : Prop :=
  ∀ minCid, match releaseInOrderTurn (r, minCid) with
    | .again s => r.DequeuesLeast s.1
    | .done s => ∃ item, r.Foremost s.2 item

def AllLeast (r : Receiver π) : Prop :=
  ∃ r', r.releaseAllTurn = .again r' ∧ r.DequeuesLeast r'

@[simp] theorem assert_forwarded (r : Receiver π) (cond : Bool) (msg : String) :
    (r.assert cond msg).forwarded = r.forwarded := by unfold assert; split_ifs <;> rfl

theorem release_handsOn (r : Receiver π) (cond : Bool) (msg : String) {cid : ℕ}
    (item : RxQueueItem π) (path : ReleasePath) :
    r.HandsOn ((r.assert cond msg).release cid item path) cid item := by
  refine ⟨⟨path, [], ?_⟩, ?_⟩
  · show (r.assert cond msg).forwarded ++ [⟨_, _, _, (r.assert cond msg).gmaRxExpectedSn⟩] = _
    rw [assert_forwarded, assert_expectedSn]
  · rw [release_queue, pop_queue_same, assert_queue]

theorem releaseLate_handsOn (r : Receiver π) (cond : Bool) (msg : String) {cid : ℕ}
    (item : RxQueueItem π) :
    r.HandsOn ((r.assert cond msg).releaseLate cid item) cid item :=
  r.release_handsOn cond msg item .late

theorem HandsOn.later {r r' s : Receiver π} {cid : ℕ} {item : RxQueueItem π}
    (h : r.HandsOn r' cid item) (hf : r'.forwarded <+: s.forwarded)
    (hq : s.queue cid <:+ r'.queue cid) : r.HandsOn s cid item := by
  obtain ⟨⟨path, later, hfor⟩, hqueue⟩ := h
  obtain ⟨more, hmore⟩ := hf
  refine ⟨⟨path, later ++ more, ?_⟩, hq.trans hqueue⟩
  rw [← hmore, hfor, List.append_assoc, List.cons_append]

theorem releaseAllPackets_later (r : Receiver π) (cid : ℕ) :
    r.forwarded <+: r.releaseAllPackets.forwarded ∧
      r.releaseAllPackets.queue cid <:+ r.queue cid := by
  apply loop_invariant (P := fun s : Receiver π =>
    r.forwarded <+: s.forwarded ∧ s.queue cid <:+ r.queue cid)
  · rintro s s' ⟨hf, hq⟩ hb
    unfold releaseAllTurn at hb
    by_cases ht : s.totalQueueSize = 0
    · simp [ht] at hb
    rw [if_neg ht] at hb
    dsimp only at hb
    generalize (s.scanFronts s.cids (maxGmaSn, noCid)).2 = minCid at hb
    generalize hcond : decide (minCid ≠ noCid) = cond at hb
    rw [assert_queue] at hb
    cases hm : s.queue minCid with
    | nil => simp [hm] at hb
    | cons item rest =>
      simp only [hm] at hb
      obtain rfl := Turn.again.inj hb
      refine ⟨?_, ?_⟩
      · have hhands : s.HandsOn _ minCid item :=
          s.release_handsOn cond " cannot be the initial value" item .drained
        obtain ⟨⟨path, later, hfor⟩, _⟩ := hhands
        rw [hfor]
        exact hf.trans (List.prefix_append _ _)
      · rw [release_queue]
        by_cases hc : cid = minCid
        · subst hc
          rw [pop_queue_same, assert_queue]
          exact (List.tail_suffix _).trans hq
        · rw [pop_queue_other _ hc, assert_queue]
          exact hq
  · intro s s' h hb
    unfold releaseAllTurn at hb
    by_cases ht : s.totalQueueSize = 0
    · rw [if_pos ht] at hb
      obtain rfl := Turn.done.inj hb
      exact h
    rw [if_neg ht] at hb
    dsimp only at hb
    generalize (s.scanFronts s.cids (maxGmaSn, noCid)).2 = minCid at hb
    rw [assert_queue] at hb
    cases hm : s.queue minCid with
    | nil =>
      simp only [hm] at hb
      obtain rfl := Turn.done.inj hb
      rw [assert_forwarded, assert_queue]
      exact h
    | cons item rest => simp [hm] at hb
  · exact ⟨List.prefix_rfl, List.suffix_rfl⟩

theorem stopReordering_later (r : Receiver π) (reason cid : ℕ) :
    r.forwarded <+: (r.stopReordering reason).forwarded ∧
      (r.stopReordering reason).queue cid <:+ r.queue cid := by
  unfold stopReordering
  split_ifs
  · exact releaseAllPackets_later { r with
      enableReordering := false, newLinkCid := noCid, stopReorderEvent := none } cid
  · exact releaseAllPackets_later r cid

/-- The SN the walks of `ReleaseInOrderPackets` and `ReleaseAllPackets` end with. -/
def pickedSn (r : Receiver π) : ℕ := SentinelScan.scan maxGmaSn snBefore r.frontSns maxGmaSn

theorem scan_front {r : Receiver π} (hne : r.frontSns ≠ []) (c0 : ℕ) :
    (r.scanFronts r.cids (maxGmaSn, c0)).1 = r.pickedSn ∧
      ∃ item rest, (r.scanFronts r.cids (maxGmaSn, c0)).2 ∈ r.cids ∧
        r.queue (r.scanFronts r.cids (maxGmaSn, c0)).2 = item :: rest ∧
        item.gmaHeader.sequenceNumber = r.pickedSn := by
  have hsn := r.scanFronts_scan r.cids (maxGmaSn, c0)
  obtain ⟨sn, hmem⟩ := List.exists_mem_of_ne_nil _ hne
  obtain ⟨cid, hcid, item, rest, hq, _⟩ := r.mem_frontSns.mp hmem
  have hstart : ((maxGmaSn, c0) : ℕ × ℕ).1 = maxGmaSn := rfl
  obtain ⟨item', rest', hc', hq', hsn'⟩ := r.scanFronts_front hstart hcid (by rw [hq]; simp)
  exact ⟨hsn, item', rest', hc', hq', hsn'.symm.trans hsn⟩

theorem releaseInOrderTurn_outcome {r : Receiver π} (hne : r.frontSns ≠ [])
    (htotal : r.totalQueueSize ≠ 0) (c0 : ℕ) :
    ∃ cid item rest, cid ∈ r.cids ∧ r.queue cid = item :: rest ∧
      item.gmaHeader.sequenceNumber = r.pickedSn ∧
      ((∃ s, releaseInOrderTurn (r, c0) = .again s ∧ r.HandsOn s.1 cid item) ∨
        ∃ s, releaseInOrderTurn (r, c0) = .done s ∧ s.2 = cid) := by
  obtain ⟨-, item, rest, hcid, hq, hsn⟩ := scan_front hne c0
  generalize hturn : releaseInOrderTurn (r, c0) = turn
  unfold releaseInOrderTurn at hturn
  rw [if_neg htotal] at hturn
  dsimp only at hturn
  generalize hbest : r.scanFronts r.cids (maxGmaSn, c0) = best at hcid hq hturn
  refine ⟨best.2, item, rest, hcid, hq, hsn, ?_⟩
  simp only [hq] at hturn
  have hlater : ∀ path, r.HandsOn _ best.2 item := fun path =>
    r.release_handsOn (decide (best.2 ≠ noCid)) " cannot be the initial value" item path
  split_ifs at hturn with hexp hnew hlate hmark hany <;> subst hturn
  · refine .inl ⟨_, rfl, (hlater .queued).later ?_ ?_⟩
    · exact (stopReordering_later _ 0 best.2).1
    · exact (stopReordering_later _ 0 best.2).2
  · exact .inl ⟨_, rfl, hlater .queued⟩
  · exact .inl ⟨_, rfl, r.releaseLate_handsOn true "" item⟩
  · exact .inl ⟨_, rfl, hlater .marked⟩
  · exact .inl ⟨_, rfl, hlater .expired⟩
  · exact .inr ⟨_, rfl, rfl⟩

theorem scanAllFronts_some {r : Receiver π} {cids : List ℕ}
    (hup : ∀ cid ∈ cids, r.linkUp cid → r.queue cid ≠ []) (best : ℕ × ℕ) :
    r.scanAllFronts cids best = some (r.scanFronts cids best) := by
  induction cids generalizing best with
  | nil => rfl
  | cons cid cids ih =>
    have htail := ih fun c hc => hup c (List.mem_cons_of_mem cid hc)
    unfold scanAllFronts scanFronts
    cases hq : r.queue cid with
    | nil =>
      have hdown : ¬ r.linkUp cid = true := fun h => hup cid List.mem_cons_self h hq
      dsimp only
      rw [if_neg hdown]
      exact htail best
    | cons item rest =>
      dsimp only
      split_ifs
      · exact htail _
      · exact htail _

section Turns
variable {r : Receiver π} {m : ℕ} (hlt : ∀ sn ∈ r.frontSns, sn < 16777216)
  (hm : SentinelScan.Least snBefore r.frontSns m)
include hlt hm

theorem foremost_iff {cid : ℕ} {item : RxQueueItem π} {rest : List (RxQueueItem π)}
    (hcid : cid ∈ r.cids) (hq : r.queue cid = item :: rest) :
    r.Foremost cid item ↔ item.gmaHeader.sequenceNumber = m := by
  have hmem : item.gmaHeader.sequenceNumber ∈ r.frontSns :=
    r.mem_frontSns.mpr ⟨cid, hcid, item, rest, hq, rfl⟩
  constructor
  · intro h
    exact ((least_iff hlt _).mpr ⟨hmem, h.least⟩).unique hm
  · intro h
    exact ⟨hcid, by rw [hq]; rfl, h ▸ ((least_iff hlt m).mp hm).2⟩

theorem dequeuesLeast_iff {r' : Receiver π} {cid : ℕ} {item : RxQueueItem π}
    {rest : List (RxQueueItem π)} (hcid : cid ∈ r.cids) (hq : r.queue cid = item :: rest)
    (h : r.HandsOn r' cid item) :
    r.DequeuesLeast r' ↔ item.gmaHeader.sequenceNumber = m := by
  constructor
  · rintro ⟨cid', item', hfore, ⟨⟨path', later', hfor'⟩, _⟩⟩
    obtain ⟨⟨path, later, hfor⟩, _⟩ := h
    have hlist := List.append_cancel_left (hfor.symm.trans hfor')
    have hheader : item.gmaHeader = item'.gmaHeader :=
      (Delivery.mk.inj (List.cons.inj hlist).1).2.1
    obtain ⟨rest', hq'⟩ : ∃ rest', r.queue cid' = item' :: rest' := by
      cases hc : r.queue cid' with
      | nil => exact absurd hfore.front (by simp [hc])
      | cons first rest' =>
        have := hfore.front
        rw [hc] at this
        exact ⟨rest', by rw [Option.some.inj this]⟩
    rw [hheader]
    exact (foremost_iff hlt hm hfore.registered hq').mp hfore
  · intro hsn
    exact ⟨cid, item, (foremost_iff hlt hm hcid hq).mpr hsn, h⟩

variable (hne : r.frontSns ≠ [])
include hne

/-- With a packet of every link in use, `ReleaseMinSnPacket` dequeues unless it picked 0xFFFFFF. -/
theorem minSnLeast_iff (hup : ∀ cid ∈ r.cids, r.linkUp cid → r.queue cid ≠ []) :
    r.MinSnLeast ↔ r.pickedSn = m ∧ r.pickedSn ≠ maxGmaSn := by
  obtain ⟨hpick, item, rest, hcid, hq, hsn⟩ := scan_front hne noCid
  have hall := scanAllFronts_some hup (maxGmaSn, noCid)
  generalize hbest : r.scanFronts r.cids (maxGmaSn, noCid) = best at hpick hcid hq hall
  by_cases htop : r.pickedSn = maxGmaSn
  · have hturn : r.releaseMinSnTurn = .done r := by
      unfold releaseMinSnTurn
      simp only [hall, hpick, htop, ↓reduceIte]
    constructor
    · intro h
      obtain ⟨r', hr', _⟩ := h hup
      rw [hturn] at hr'
      cases hr'
    · rintro ⟨_, hne'⟩
      exact absurd htop hne'
  · have hturn : ∃ r', r.releaseMinSnTurn = .again r' ∧ r.HandsOn r' best.2 item := by
      unfold releaseMinSnTurn
      simp only [hall, hpick, htop, ↓reduceIte, assert_queue, hq]
      split_ifs
      · exact ⟨_, rfl, r.release_handsOn _ _ item .minSn⟩
      · exact ⟨_, rfl, r.releaseLate_handsOn _ _ item⟩
    obtain ⟨r', hr', hhands⟩ := hturn
    have h := dequeuesLeast_iff hlt hm hcid hq hhands
    rw [hsn] at h
    constructor
    · intro hleast
      obtain ⟨r'', hr'', hd⟩ := hleast hup
      rw [hr'] at hr''
      rw [← Turn.again.inj hr''] at hd
      exact ⟨h.mp hd, htop⟩
    · rintro ⟨hpm, _⟩ _
      exact ⟨r', hr', h.mpr hpm⟩

variable (htotal : r.totalQueueSize ≠ 0)
include htotal

theorem inOrderLeast_iff : r.InOrderLeast ↔ r.pickedSn = m := by
  constructor
  · intro h
    have h0 := h noCid
    obtain ⟨cid, item, rest, hcid, hq, hsn, ⟨s, hs, hhands⟩ | ⟨s, hs, hmin⟩⟩ :=
      releaseInOrderTurn_outcome hne htotal noCid
    · rw [hs] at h0
      exact hsn ▸ (dequeuesLeast_iff hlt hm hcid hq hhands).mp h0
    · rw [hs] at h0
      obtain ⟨item', hfore⟩ := h0
      rw [hmin] at hfore
      have hitem : item' = item := by
        have := hfore.front
        rw [hq] at this
        exact (Option.some.inj this).symm
      rw [hitem] at hfore
      exact hsn ▸ (foremost_iff hlt hm hcid hq).mp hfore
  · intro hpm minCid
    obtain ⟨cid, item, rest, hcid, hq, hsn, ⟨s, hs, hhands⟩ | ⟨s, hs, hmin⟩⟩ :=
      releaseInOrderTurn_outcome hne htotal minCid
    · rw [hs]
      exact (dequeuesLeast_iff hlt hm hcid hq hhands).mpr (hsn.trans hpm)
    · rw [hs]
      refine ⟨item, ?_⟩
      rw [hmin]
      exact (foremost_iff hlt hm hcid hq).mpr (hsn.trans hpm)

theorem allLeast_iff : r.AllLeast ↔ r.pickedSn = m := by
  obtain ⟨-, item, rest, hcid, hq, hsn⟩ := scan_front hne noCid
  generalize hc : (r.scanFronts r.cids (maxGmaSn, noCid)).2 = cid at hcid hq
  have hturn : r.releaseAllTurn =
      .again ((r.assert (cid ≠ noCid) " cannot be the initial value").release cid item .drained)
      := by
    unfold releaseAllTurn
    rw [if_neg htotal]
    simp only [hc, assert_queue, hq]
  have h := dequeuesLeast_iff hlt hm hcid hq (r.release_handsOn (cid ≠ noCid)
    " cannot be the initial value" item .drained)
  rw [hsn] at h
  rw [← h]
  constructor
  · rintro ⟨r', hr', hleast⟩
    rw [hturn] at hr'
    rwa [← Turn.again.inj hr'] at hleast
  · intro hleast
    exact ⟨_, hturn, hleast⟩

end Turns

def TopFirst (r : Receiver π) : Prop :=
  maxGmaSn ∈ r.frontSns ∧ ∀ sn ∈ r.frontSns, snDiff maxGmaSn sn ≤ 0

theorem pickedSn_eq_iff {r : Receiver π} {m : ℕ} (hm : SentinelScan.Least snBefore r.frontSns m) :
    r.pickedSn = m ↔ m ≠ maxGmaSn ∨ r.frontSns.getLast? = some maxGmaSn := by
  by_cases htop : m = maxGmaSn
  · subst htop
    have h := SentinelScan.scan_sentinel hm
    exact ⟨fun hp => .inr (h.mp hp), fun hl => h.mpr (hl.resolve_left fun e => e rfl)⟩
  · have h := SentinelScan.scan_least hm htop (fun _ hy => hy) hm.mem (.inl rfl)
    exact ⟨fun _ => .inl htop, fun _ => h⟩

/-- The three release functions take the serially smallest front, unless it is 0xFFFFFF: then
`ReleaseMinSnPacket` must have a queue to wait for and the front has to be the last one. -/
theorem release_least_iff (r : Receiver π) (hwindow : HalfWindow r.frontSns)
    (hne : r.frontSns ≠ []) (htotal : r.totalQueueSize = r.queued.length) :
    (r.MinSnLeast ∧ r.InOrderLeast ∧ r.AllLeast) ↔
      ¬ r.TopFirst ∨ ((∃ cid ∈ r.cids, r.linkUp cid = true ∧ r.queue cid = []) ∧
        r.frontSns.getLast? = some maxGmaSn) := by
  have hlt : ∀ sn ∈ r.frontSns, sn < 16777216 := fun _ => hwindow.lt
  obtain ⟨m, hmem, hleast⟩ := hwindow.exists_least hne
  have hm : SentinelScan.Least snBefore r.frontSns m := (least_iff hlt m).mpr ⟨hmem, hleast⟩
  have htotal' : r.totalQueueSize ≠ 0 := by
    obtain ⟨cid, hcid, item, rest, hq, _⟩ := r.mem_frontSns.mp hmem
    have hitem : item ∈ r.queued := List.mem_flatMap.mpr ⟨cid, hcid, by rw [hq]; simp⟩
    rw [htotal]
    exact (List.length_pos_of_mem hitem).ne'
  have htop : r.TopFirst ↔ m = maxGmaSn := by
    constructor
    · intro h
      exact hm.unique ((least_iff hlt _).mpr h)
    · rintro rfl
      exact ⟨hmem, hleast⟩
  have hpick := pickedSn_eq_iff hm
  rw [allLeast_iff hlt hm hne htotal', inOrderLeast_iff hlt hm hne htotal', htop]
  by_cases hwait : ∃ cid ∈ r.cids, r.linkUp cid = true ∧ r.queue cid = []
  · have hmin : r.MinSnLeast := by
      obtain ⟨cid, hcid, hup, hq⟩ := hwait
      intro h
      exact absurd hq (h cid hcid hup)
    constructor
    · rintro ⟨_, hp, _⟩
      exact (hpick.mp hp).imp_right fun hl => ⟨hwait, hl⟩
    · intro h
      have hp := hpick.mpr (h.imp_right And.right)
      exact ⟨hmin, hp, hp⟩
  · have hup : ∀ cid ∈ r.cids, r.linkUp cid → r.queue cid ≠ [] :=
      fun cid hcid hlink hq => hwait ⟨cid, hcid, hlink, hq⟩
    rw [minSnLeast_iff hlt hm hne hup]
    constructor
    · rintro ⟨⟨hp, hsn⟩, _⟩
      exact .inl fun e => hsn (hp.trans e)
    · rintro (h | h)
      · have hp := hpick.mpr (.inl h)
        exact ⟨⟨hp, fun e => h (hp.symm.trans e)⟩, hp, hp⟩
      · exact absurd h.1 hwait

def aroundTop : Receiver ℕ :=
  ({ cids := [0, 1], gmaRxExpectedSn := 16777214, enableReordering := true } :
    Receiver ℕ).receive 10 ⟨16777215, 0, 0⟩

def aroundTopFronts : Receiver ℕ := aroundTop.outOfOrder 11 ⟨0, 1, 1⟩ 1

theorem release_least_wraps : ∃ r : Receiver ℕ, r.frontSns = [16777214, 16777215, 0] ∧
    (r.MinSnLeast ∧ r.InOrderLeast ∧ r.AllLeast) := by
  refine ⟨({ cids := [0, 1, 2], totalQueueSize := 3, linkParams := fun cid =>
    { reorderingQueue := [⟨cid, ⟨(16777214 + cid) % 16777216, 0, cid⟩, false, 0⟩] } }), rfl, ?_⟩
  exact (release_least_iff _ ⟨16777214, by decide, by decide⟩ (by decide) rfl).mpr
    (.inl fun h => absurd (h.2 16777214 (by decide)) (by decide))

/-- In order by SN, the two packets are handed on the other way round. -/
theorem top_front_overtaken :
    (HalfWindow aroundTopFronts.frontSns ∧ aroundTopFronts.frontSns ≠ [] ∧
      aroundTopFronts.totalQueueSize = aroundTopFronts.queued.length ∧
      ¬ (aroundTopFronts.MinSnLeast ∧ aroundTopFronts.InOrderLeast ∧ aroundTopFronts.AllLeast)) ∧
    (aroundTop.receive 11 ⟨0, 1, 1⟩).forwarded.map (fun d => d.gmaHeader.sequenceNumber) =
      [0, 16777215] := by
  have hwindow : HalfWindow aroundTopFronts.frontSns := ⟨16777215, by decide, by decide⟩
  have hleast : SentinelScan.Least snBefore aroundTopFronts.frontSns 16777215 :=
    (least_iff (fun _ => hwindow.lt) _).mpr (by decide)
  have hall := allLeast_iff (fun _ => hwindow.lt) hleast (by decide) (by decide)
  refine ⟨⟨hwindow, by decide, by decide, ?_⟩, by decide⟩
  rintro ⟨_, _, h⟩
  exact absurd (hall.mp h) (by decide)

end Receiver
end NetGymSim.Gma

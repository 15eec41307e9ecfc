import NetGymSim.Gma.Tracking

/-!
# Delivery in order

`Ahead` says that everything queued is still to come: at or after the expected
index, less than half the space ahead of it, and in one queue only. Under it the
walks over the fronts find the smallest index, no release is late, and the indices
handed on increase.
-/

namespace NetGymSim.Gma
open NetGymSim.Lib

theorem scanFronts_least (r : Receiver ℕ)
    (hdiff : ∀ c d a b s t, r.queue c = a :: s → r.queue d = b :: t →
      snDiff a.gmaHeader.sequenceNumber b.gmaHeader.sequenceNumber = (a.packet : ℤ) - b.packet)
    (hplain : ∀ c a s, r.queue c = a :: s → a.gmaHeader.sequenceNumber ≠ maxGmaSn)
    (cids : List ℕ) (best : ℕ × ℕ) (hbest : best.1 = maxGmaSn ∨
      ∃ item rest, r.queue best.2 = item :: rest ∧ best.1 = item.gmaHeader.sequenceNumber)
    {item : RxQueueItem ℕ} {rest : List (RxQueueItem ℕ)}
    (hq : r.queue (r.scanFronts cids best).2 = item :: rest) :
    (∀ d ∈ cids, ∀ other tail, r.queue d = other :: tail → item.packet ≤ other.packet) ∧
      (best.1 ≠ maxGmaSn → ∀ other tail, r.queue best.2 = other :: tail →
        item.packet ≤ other.packet) := by
  induction cids generalizing best with
  | nil =>
    refine ⟨by simp, fun _ other tail ho => ?_⟩
    have he : other :: tail = item :: rest := ho.symm.trans hq
    rw [(List.cons.inj he).1]
  | cons c cids ih =>
    unfold Receiver.scanFronts at hq
    cases hc : r.queue c with
    | nil =>
      simp only [hc] at hq
      obtain ⟨h1, h2⟩ := ih best hbest hq
      refine ⟨?_, h2⟩
      intro d hd other tail ho
      rcases List.mem_cons.mp hd with rfl | hd
      · rw [hc] at ho
        cases ho
      · exact h1 d hd other tail ho
    | cons front tail =>
      simp only [hc] at hq
      by_cases hr : Receiver.replaces best.1 front
      · rw [if_pos hr] at hq
        obtain ⟨h1, h2⟩ := ih (front.gmaHeader.sequenceNumber, c) (.inr ⟨front, tail, hc, rfl⟩) hq
        have hfront := h2 (hplain c front tail hc) front tail hc
        refine ⟨?_, ?_⟩
        · intro d hd other tail' ho
          rcases List.mem_cons.mp hd with rfl | hd
          · rw [hc] at ho
            rw [← (List.cons.inj ho).1]
            exact hfront
          · exact h1 d hd other tail' ho
        · intro hne other tail' ho
          obtain ⟨b, s, hb, hsn⟩ := hbest.resolve_left hne
          rw [hb] at ho
          rw [← (List.cons.inj ho).1]
          have hpos : snDiff best.1 front.gmaHeader.sequenceNumber > 0 := by
            simpa [Receiver.replaces, hne] using hr
          rw [hsn, hdiff best.2 c b front s tail hb hc] at hpos
          omega
      · rw [if_neg hr] at hq
        obtain ⟨h1, h2⟩ := ih best hbest hq
        refine ⟨?_, h2⟩
        intro d hd other tail' ho
        rcases List.mem_cons.mp hd with rfl | hd
        · have hne : best.1 ≠ maxGmaSn := fun e => hr (by simp [Receiver.replaces, e])
          obtain ⟨b, s, hb, hsn⟩ := hbest.resolve_left hne
          have hle : ¬ snDiff best.1 front.gmaHeader.sequenceNumber > 0 :=
            fun hgt => hr (by simp [Receiver.replaces, hgt])
          rw [hsn, hdiff best.2 d b front s tail hb hc] at hle
          rw [hc] at ho
          rw [← (List.cons.inj ho).1]
          have := h2 hne b s hb
          omega
        · exact h1 d hd other tail' ho

structure Ahead (log : List (Delivery ℕ)) (queue : ℕ → List (RxQueueItem ℕ)) : Prop where
  ahead : ∀ cid, ∀ item ∈ queue cid,
    nextIndex log ≤ item.packet ∧ item.packet < nextIndex log + 8388608
  plain : ∀ cid, ∀ item ∈ queue cid, item.gmaHeader.sequenceNumber ≠ maxGmaSn
  apart : ∀ c d, c ≠ d → ∀ a ∈ queue c, ∀ b ∈ queue d, a.packet ≠ b.packet
  increasing : (log.map Delivery.packet).Pairwise (· < ·)
  passed : ∀ d ∈ log, d.packet < nextIndex log
  punctual : ∀ d ∈ log, 0 ≤ snDiff d.gmaHeader.sequenceNumber d.expectedSn

namespace Ahead
variable {v : View} {r : Receiver ℕ} {log : List (Delivery ℕ)}
  {queue : ℕ → List (RxQueueItem ℕ)} {item : RxQueueItem ℕ} {rest : List (RxQueueItem ℕ)}

theorem nil : Ahead [] fun _ => [] :=
  ⟨nofun, nofun, nofun, List.Pairwise.nil, nofun, nofun⟩

theorem near (h : Ahead log queue) : Tracks.Near (nextIndex log) queue := by
  intro cid item hi
  have := h.ahead cid item hi
  omega

theorem hand_on (h : Ahead log queue) {d : Delivery ℕ} (hd : d.path ≠ .late)
    (hle : nextIndex log ≤ d.packet)
    (hdiff : 0 ≤ snDiff d.gmaHeader.sequenceNumber d.expectedSn)
    {queue' : ℕ → List (RxQueueItem ℕ)}
    (hsub : ∀ c, ∀ a ∈ queue' c, a ∈ queue c) (hgt : ∀ c, ∀ a ∈ queue' c, d.packet < a.packet) :
    Ahead (log ++ [d]) queue' := by
  have hnext : nextIndex (log ++ [d]) = d.packet + 1 := by rw [nextIndex_append, if_neg hd]
  refine ⟨?_, fun c a ha => h.plain c a (hsub c a ha), ?_, ?_, ?_, ?_⟩
  · intro c a ha
    have h1 := h.ahead c a (hsub c a ha)
    have h2 := hgt c a ha
    rw [hnext]
    omega
  · intro c c' hcc a ha b hb
    exact h.apart c c' hcc a (hsub c a ha) b (hsub c' b hb)
  · rw [List.map_append, List.pairwise_append]
    refine ⟨h.increasing, List.pairwise_singleton _ _, ?_⟩
    intro x hx y hy
    obtain ⟨e, he, rfl⟩ := List.mem_map.mp hx
    obtain rfl : y = d.packet := List.mem_singleton.mp hy
    exact (h.passed e he).trans_le hle
  · intro e he
    rw [hnext]
    rcases List.mem_append.mp he with he | he
    · have := h.passed e he
      omega
    · rw [List.mem_singleton.mp he]
      exact Nat.lt_succ_self _
  · intro e he
    rcases List.mem_append.mp he with he | he
    · exact h.punctual e he
    · rw [List.mem_singleton.mp he]
      exact hdiff

theorem push (h : Ahead log queue) {cid : ℕ} (item : RxQueueItem ℕ)
    (hlt : nextIndex log < item.packet)
    (hhi : item.packet < nextIndex log + 8388608)
    (hplain : item.gmaHeader.sequenceNumber ≠ maxGmaSn)
    (hnew : ∀ c, ∀ a ∈ queue c, a.packet ≠ item.packet) :
    Ahead log (Function.update queue cid (queue cid ++ [item])) := by
  have hmem : ∀ c, ∀ a ∈ Function.update queue cid (queue cid ++ [item]) c,
      a ∈ queue c ∨ (c = cid ∧ a = item) := by
    intro c a ha
    by_cases hc : c = cid
    · subst hc
      rw [Function.update_self] at ha
      rcases List.mem_append.mp ha with ha | ha
      · exact .inl ha
      · exact .inr ⟨rfl, List.mem_singleton.mp ha⟩
    · rw [Function.update_of_ne hc] at ha
      exact .inl ha
  refine ⟨?_, ?_, ?_, h.increasing, h.passed, h.punctual⟩
  · intro c a ha
    rcases hmem c a ha with ha | ⟨_, rfl⟩
    · exact h.ahead c a ha
    · exact ⟨hlt.le, hhi⟩
  · intro c a ha
    rcases hmem c a ha with ha | ⟨_, rfl⟩
    · exact h.plain c a ha
    · exact hplain
  · intro c d hcd a ha b hb
    rcases hmem c a ha with ha' | ⟨hc, hai⟩ <;> rcases hmem d b hb with hb' | ⟨hd, hbi⟩
    · exact h.apart c d hcd a ha' b hb'
    · rw [hbi]
      exact hnew c a ha'
    · rw [hai]
      exact (hnew d b hb').symm
    · exact absurd (hc.trans hd.symm) hcd

theorem chosen_lt (h : Ahead r.forwarded r.queue) (ht : Tracks v r) {c0 : ℕ}
    (hq : r.queue (r.scanFronts r.cids (maxGmaSn, c0)).2 = item :: rest) :
    ∀ c, ∀ a ∈ Function.update r.queue (r.scanFronts r.cids (maxGmaSn, c0)).2 rest c,
      item.packet < a.packet := by
  have hdiff : ∀ c d a b s t, r.queue c = a :: s → r.queue d = b :: t →
      snDiff a.gmaHeader.sequenceNumber b.gmaHeader.sequenceNumber = (a.packet : ℤ) - b.packet := by
    intro c d a b s t ha hb
    have h1 := h.ahead c a (by rw [ha]; exact List.mem_cons_self)
    have h2 := h.ahead d b (by rw [hb]; exact List.mem_cons_self)
    rw [(ht.front ha).1, (ht.front hb).1]
    exact snDiff_residues (by omega) (by omega)
  have hleast := (scanFronts_least r hdiff
    (fun c a s ha => h.plain c a (by rw [ha]; exact List.mem_cons_self)) r.cids
    (maxGmaSn, c0) (.inl rfl) hq).1
  generalize (r.scanFronts r.cids (maxGmaSn, c0)).2 = cid at hq ⊢
  intro c a ha
  by_cases hc : c = cid
  · subst hc
    rw [Function.update_self] at ha
    exact ht.queues.front_le hq ha
  · rw [Function.update_of_ne hc] at ha
    have hne := h.apart cid c (Ne.symm hc) item (by rw [hq]; exact List.mem_cons_self) a ha
    cases hqc : r.queue c with
    | nil =>
      rw [hqc] at ha
      cases ha
    | cons other tail =>
      have h1 := hleast c (ht.mem_cids hqc) other tail hqc
      rw [hqc] at ha
      rcases List.mem_cons.mp ha with rfl | ha
      · omega
      · have := ht.queues.front_le hqc ha
        omega

theorem mem_of_mem_update {cid c : ℕ} {a : RxQueueItem ℕ} (hq : queue cid = item :: rest)
    (ha : a ∈ Function.update queue cid rest c) : a ∈ queue c := by
  by_cases hc : c = cid
  · subst hc
    rw [Function.update_self] at ha
    rw [hq]
    exact List.mem_cons_of_mem _ ha
  · rwa [Function.update_of_ne hc] at ha

theorem keeps (v : View) : Keeps (fun r => Tracks v r ∧ Ahead r.forwarded r.queue) := by
  refine tracks_keeps v Ahead (fun _ _ h => h.near) ?_ ?_
  · intro r item rest c0 path ht h hq hle hp
    have hdiff := ht.snDiff_front h.near hq
    exact h.hand_on (d := ⟨item.packet, item.gmaHeader, path, r.gmaRxExpectedSn⟩) hp hle
      (show 0 ≤ snDiff item.gmaHeader.sequenceNumber r.gmaRxExpectedSn by omega)
      (fun c a ha => mem_of_mem_update hq ha) (h.chosen_lt ht hq)
  · intro r item rest cid ht h hq hlt
    have h1 := (h.ahead cid item (by rw [hq]; exact List.mem_cons_self)).1
    exact absurd hlt (Nat.not_lt.mpr h1)

/-- An arriving packet keeps the order if it is new, has an SN the walks can see, and no
queued packet lies in a gap that its LSN closes. -/
theorem arrive {cid m : ℕ} {gmaHeader : GmaHeader} (h : Ahead r.forwarded r.queue)
    (ht : Tracks v r) (hc : cid ∈ r.cids) (hsn : gmaHeader.sequenceNumber = m % 16777216)
    (hcid : gmaHeader.connectionId = cid) (hseen : v.seen cid ≤ m)
    (hlo : m < r.nextIndex + 8388608) (hhi : r.nextIndex < m + 8388608)
    (hplain : r.nextIndex < m → gmaHeader.sequenceNumber ≠ maxGmaSn)
    (hnew : ∀ c, ∀ a ∈ r.queue c, a.packet ≠ m)
    (hgap : r.lsnTest gmaHeader cid → ∀ j, v.seen cid ≤ j → j < m → v.gap cid j)
    (hfree : ∀ c, ∀ a ∈ r.queue c, ¬ v.gap cid a.packet) :
    Tracks ((v.arrived cid m).record cid gmaHeader) (r.receive m gmaHeader) ∧
      Ahead (r.receive m gmaHeader).forwarded (r.receive m gmaHeader).queue := by
  have hdiff : snDiff gmaHeader.sequenceNumber r.gmaRxExpectedSn = (m : ℤ) - r.nextIndex := by
    rw [hsn, ht.expected]
    exact snDiff_residues hlo hhi
  refine ht.arrive (keeps (v.arrived cid m)) h hc hsn hcid hseen hlo hhi hgap ?_ ?_ ?_
  · intro hm
    refine h.hand_on (d := ⟨m, gmaHeader, .expected, r.gmaRxExpectedSn⟩)
      (show ReleasePath.expected ≠ .late by decide) hm.ge
      (show 0 ≤ snDiff gmaHeader.sequenceNumber r.gmaRxExpectedSn by omega)
      (fun c a ha => ha) ?_
    intro c a ha
    have h1 := (h.ahead c a ha).1
    have h2 := hnew c a ha
    have h3 : nextIndex r.forwarded = m := hm.symm
    show m < a.packet
    omega
  · intro hlt hl hnil
    refine h.hand_on (d := ⟨m, gmaHeader, .lsnTest, r.gmaRxExpectedSn⟩)
      (show ReleasePath.lsnTest ≠ .late by decide) (Nat.le_of_lt hlt)
      (show 0 ≤ snDiff gmaHeader.sequenceNumber r.gmaRxExpectedSn by omega)
      (fun c a ha => ha) ?_
    intro c a ha
    have h1 : r.nextIndex ≤ a.packet := (h.ahead c a ha).1
    have h2 := hnew c a ha
    have hs := ht.queues.seen_le_of_nil hnil
    show m < a.packet
    by_contra hle
    exact hfree c a ha (hgap hl a.packet (hs.trans h1) (by omega))
  · intro inOrder hlt
    exact h.push ⟨m, gmaHeader, inOrder, r.now⟩ hlt hlo (hplain hlt) hnew

end Ahead
end NetGymSim.Gma

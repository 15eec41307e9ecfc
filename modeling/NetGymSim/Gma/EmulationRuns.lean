import NetGymSim.Gma.TsuSteps

/-!
# Delay emulation over runs

A TSU that is newer than the last one and is not turned round changes the emulated
delays. Since the one before left a link without delay, the least delay it finds is 127
at most, which bounds every offset. An offset is the change of the delay as long as the
`uint32_t` it is added to does not wrap.
-/

namespace NetGymSim.Gma
open NetGymSim.Lib

def findLink (offsets : List ℤ) (kVector : List ℕ) : Prop :=
  ∃ p ∈ offsets.zip kVector, 0 ≤ p.1 ∧ 0 < p.2

instance (offsets : List ℤ) (kVector : List ℕ) : Decidable (findLink offsets kVector) :=
  inferInstanceAs (Decidable (∃ p ∈ offsets.zip kVector, 0 ≤ p.1 ∧ 0 < p.2))

def drains (p : ℤ × ℕ) : Prop := p.1 < 0 ∧ 0 < p.2

instance (p : ℤ × ℕ) : Decidable (drains p) := inferInstanceAs (Decidable (p.1 < 0 ∧ 0 < p.2))

def queueingDelayVector (offsets : List ℤ) (kVector : List ℕ) : Option (List ℕ) :=
  if findLink offsets kVector then
    some ((offsets.zip kVector).map fun p => if drains p then (-p.1).toNat % 256 else 0)
  else none

/-- The `NS_FATAL_ERROR` range checks that fire, in the order of the source. -/
def rangeErrors (least : ℕ) (offsets : List ℤ) (kVector : List ℕ) : List String :=
  (if least = 4294967295 then ["the min of emulated delay should not be UINT32_MAX!"] else []) ++
  (if findLink offsets kVector ∧ ∃ p ∈ offsets.zip kVector, drains p ∧ p.1 < -127 then
    ["the delay offset should be in the range of -127 ~ 128"] else []) ++
  (if ∃ o ∈ offsets, o < -127 ∨ 128 < o then
    ["the delay offset should be in the range of -127 ~ 128"] else [])

theorem foldl_drain_max (links : List (ℤ × ℕ)) (m : ℕ) (hb : ∀ p ∈ links, -127 ≤ p.1) :
    links.foldl (fun m p => if p.1 < 0 ∧ 0 < p.2 then max m (-p.1).toNat else m) m =
      (links.map fun p => if drains p then (-p.1).toNat % 256 else 0).foldl max m := by
  induction links generalizing m with
  | nil => rfl
  | cons p links ih =>
    have hp := hb p List.mem_cons_self
    rw [List.foldl_cons, List.map_cons, List.foldl_cons,
      ih _ fun q hq => hb q (List.mem_cons_of_mem p hq)]
    congr 1
    by_cases hd : p.1 < 0 ∧ 0 < p.2
    · have hdrains : drains p := hd
      rw [if_pos hd, if_pos hdrains, Nat.mod_eq_of_lt (by omega)]
    · have hdrains : ¬ drains p := hd
      rw [if_neg hd, if_neg hdrains, Nat.max_zero]

theorem drainDelay_eq {offsets : List ℤ} (kVector : List ℕ) (hb : ∀ o ∈ offsets, -127 ≤ o) :
    Endpoint.drainDelay offsets kVector =
      ((queueingDelayVector offsets kVector).getD []).foldl max 0 := by
  have hz : ∀ p ∈ offsets.zip kVector, -127 ≤ p.1 := fun p hp => hb p.1 (List.of_mem_zip hp).1
  unfold queueingDelayVector
  by_cases hf : findLink offsets kVector
  · rw [if_pos hf, Option.getD_some, ← foldl_drain_max _ _ hz]
    exact if_pos hf
  · rw [if_neg hf]
    exact if_neg hf

theorem rangeErrors_eq_nil {least : ℕ} {offsets : List ℤ} (kVector : List ℕ)
    (hl : least ≤ 127) (hb : ∀ o ∈ offsets, -127 ≤ o ∧ o ≤ 127) :
    rangeErrors least offsets kVector = [] := by
  have hdrain : ¬ (findLink offsets kVector ∧
      ∃ p ∈ offsets.zip kVector, drains p ∧ p.1 < -127) := by
    rintro ⟨-, p, hp, -, hlow⟩
    have := (hb p.1 (List.of_mem_zip hp).1).1
    omega
  have hrange : ¬ ∃ o ∈ offsets, o < -127 ∨ 128 < o := by
    rintro ⟨o, ho, hout⟩
    have := hb o ho
    omega
  rw [rangeErrors, if_neg (by omega), if_neg hdrain, if_neg hrange]
  rfl

theorem queueingDelayVector_spec {offsets : List ℤ} {kVector v : List ℕ}
    (h : queueingDelayVector offsets kVector = some v) :
    ∃ (i k : ℕ), kVector[i]? = some k ∧ 0 < k ∧ v[i]? = some 0 := by
  unfold queueingDelayVector at h
  split_ifs at h with hf
  obtain ⟨p, hp, hpos, hk⟩ := hf
  obtain ⟨i, hi⟩ := List.mem_iff_getElem?.mp hp
  obtain ⟨-, hki⟩ := List.getElem?_zip_eq_some.mp hi
  have hdrain : ¬ drains p := fun hd => by
    have := hd.1
    omega
  refine ⟨i, p.2, hki, hk, ?_⟩
  rw [← Option.some.inj h, List.getElem?_map, hi, Option.map_some, if_neg hdrain]

namespace Endpoint

/-- The TSU is newer than the last one and leads to new delays. -/
structure Accepts (s : Endpoint) (header : MxControlHeader) : Prop where
  type : header.type = .tsu
  isNew : s.newTsu header
  notTurned : ¬ s.turnsRound header

section Accepted
variable {s : Endpoint} {header : MxControlHeader} {a : Answers}

def delayOffsets (s : Endpoint) (header : MxControlHeader) : List ℤ :=
  (emulateDelays s.linkMap.linkState.cidList header.owdVector s.emulateDelay).2

def delayChanges (s : Endpoint) (header : MxControlHeader) (a : Answers) : List ℤ :=
  s.linkMap.linkState.cidList.map fun cid =>
    ((s.next (.recv header a)).emulateDelay cid : ℤ) - s.emulateDelay cid

theorem Accepts.turnsRound_recvLinkMap (h : s.Accepts header) (a : Answers) :
    ¬ (s.recvLinkMap header a).turnsRound header := by
  have hm := (recvLinkMap_same s header a).1
  intro ht
  apply h.notTurned
  refine ⟨h.isNew, ?_⟩
  rw [← hm.config]
  exact ht.2

theorem Accepts.next (h : s.Accepts header) (a : Answers) :
    (s.next (.recv header a)).emulateDelay =
        (emulateDelays s.linkMap.linkState.cidList header.owdVector s.emulateDelay).1 ∧
      (s.next (.recv header a)).maxTsuSeqNum = header.sequenceNumber ∧
      (s.next (.recv header a)).config = s.config ∧
      (s.next (.recv header a)).linkMap.linkState.cidList = s.linkMap.linkState.cidList ∧
      ∃ g, (s.next (.recv header a)).replies = s.replies ++ [g] ∧ g.type = .tsa ∧
        g.owdVector = encodeOffsets (s.delayOffsets header) ∧
        g.delay = drainDelay (s.delayOffsets header) header.kVector := by
  obtain ⟨hm, hrep⟩ := recvLinkMap_same s header a
  have hnew : (s.recvLinkMap header a).newTsu header := (hm.newTsu_iff header).mpr h.isNew
  rw [recv_tsu_eq h.type, recvTsu, if_neg (h.turnsRound_recvLinkMap a), acceptTsu, if_pos hnew]
  unfold delayOffsets
  rw [← hrep, ← hm.delay, ← hm.cids, ← hm.config]
  exact ⟨rfl, rfl, rfl, rfl, _, rfl, rfl, rfl, rfl⟩

end Accepted

structure EmulatesDelay (s : Endpoint) (header : MxControlHeader) (a : Answers) : Prop where
  least : Normal s.linkMap.linkState.cidList (s.next (.recv header a)).emulateDelay
  bounds : ∀ o ∈ s.delayOffsets header, -127 ≤ o ∧ o ≤ 127
  tsa : ∃ g, (s.next (.recv header a)).replies = s.replies ++ [g] ∧ g.type = .tsa ∧
    g.owdVector.map decodeOffset = s.delayOffsets header ∧
    g.delay = ((queueingDelayVector (s.delayOffsets header) header.kVector).getD []).foldl max 0
  checks : rangeErrors (leastDelay s.linkMap.linkState.cidList header.owdVector s.emulateDelay)
    (s.delayOffsets header) header.kVector = []
  drain : ∀ v, queueingDelayVector (s.delayOffsets header) header.kVector = some v →
    ∃ (i k : ℕ), header.kVector[i]? = some k ∧ 0 < k ∧ v[i]? = some 0

section Emulated
variable {s : Endpoint} {header : MxControlHeader} {cids : List Cid}

theorem Accepts.emulatesDelay (h : s.Accepts header) (a : Answers)
    (he : s.enabled (.recv header a)) (hn : cids.Nodup) (hne : cids ≠ [])
    (hc : s.linkMap.linkState.cidList = cids) (hz : Normal cids s.emulateDelay) :
    EmulatesDelay s header a := by
  subst hc
  have hl := he.2 h.type
  have hbounds : ∀ o ∈ s.delayOffsets header, -127 ≤ o ∧ o ≤ 127 :=
    fun o ho => emulateDelays_offset_bounds hn hl hz ho
  obtain ⟨hdelay, -, -, -, g, hg, htype, hvec, hdrain⟩ := h.next a
  refine ⟨?_, hbounds, ⟨g, hg, htype, ?_, ?_⟩, ?_, ?_⟩
  · rw [hdelay]
    exact emulateDelays_normal hn hl hne
  · rw [hvec]
    exact decode_encodeOffsets fun o ho => ⟨(hbounds o ho).1, (hbounds o ho).2.trans (by decide)⟩
  · rw [hdrain]
    exact drainDelay_eq header.kVector fun o ho => (hbounds o ho).1
  · exact rangeErrors_eq_nil header.kVector (leastDelay_le hn hl hz) hbounds
  · intro v hv
    exact queueingDelayVector_spec hv

theorem Accepts.changes_iff (h : s.Accepts header) (a : Answers)
    (he : s.enabled (.recv header a)) (hn : cids.Nodup)
    (hc : s.linkMap.linkState.cidList = cids) :
    s.delayOffsets header = s.delayChanges header a ↔
      OffsetsFit cids header.owdVector s.emulateDelay := by
  subst hc
  unfold delayChanges
  rw [(h.next a).1]
  exact emulateDelays_spec_iff hn (he.2 h.type)

end Emulated

theorem delay_emulation (config : EndpointConfig) (linkState : LinkState) (links : LinkIds)
    (hn : linkState.cidList.Nodup) (hne : linkState.cidList ≠ []) {es : List Event} {s : Endpoint}
    (h : machine.Reaches (start config linkState links) es s) (header : MxControlHeader)
    (a : Answers) (he : s.enabled (.recv header a)) (hacc : s.Accepts header) :
    EmulatesDelay s header a ∧ (s.delayOffsets header = s.delayChanges header a ↔
      OffsetsFit linkState.cidList header.owdVector s.emulateDelay) := by
  have hnormal : s.linkMap.linkState.cidList = linkState.cidList ∧
      Normal linkState.cidList s.emulateDelay := by
    refine Machine.Reaches.invariant (P := fun t : Endpoint =>
      t.linkMap.linkState.cidList = linkState.cidList ∧
        Normal linkState.cidList t.emulateDelay) ?_ ?_ h
    · obtain ⟨cid, hmem⟩ := List.exists_mem_of_ne_nil _ hne
      exact ⟨rfl, cid, hmem, rfl⟩
    · intro t e ⟨hc, hz⟩ henabled
      exact next_normal e henabled hn hne hc hz
  exact ⟨hacc.emulatesDelay a he hn hne hnormal.1 hnormal.2, hacc.changes_iff a he hn hnormal.1⟩

def emptyQueues : Endpoint := start {} { cidList := [0, 2] } ⟨[0, 2], LinkIds.pair_sorted⟩

def growingTsu (csn : ℕ) : MxControlHeader :=
  { type := .tsu, connectionId := 0, sequenceNumber := csn % 65536, linkStatus := 1
    kVector := [1, 1], owdVector := [0, 127] }

theorem delay_emulation_two_links :
    EmulatesDelay emptyQueues (growingTsu 1) {} ∧
      (emptyQueues.delayOffsets (growingTsu 1) = emptyQueues.delayChanges (growingTsu 1) {} ↔
        OffsetsFit [0, 2] [0, 127] emptyQueues.emulateDelay) :=
  delay_emulation {} { cidList := [0, 2] } ⟨[0, 2], by decide⟩ (by decide) (by decide) .nil
    (growingTsu 1) {} (by decide) ⟨by decide, by decide, by decide⟩

structure Grown (n : ℕ) (s : Endpoint) : Prop where
  config : s.config = {}
  cids : s.linkMap.linkState.cidList = [0, 2]
  maxTsu : s.maxTsuSeqNum = n % 65536
  first : s.emulateDelay 0 = 0
  second : s.emulateDelay 2 = 127 * n

namespace Grown
variable {n : ℕ} {s : Endpoint}

theorem enabled (h : Grown n s) : s.enabled (.recv (growingTsu (n + 1)) {}) := by
  refine ⟨Nat.mod_lt _ (by decide), fun _ => ?_⟩
  rw [h.cids]
  rfl

theorem accepts (h : Grown n s) : s.Accepts (growingTsu (n + 1)) := by
  have hdiff : csnDiff (((n : ℤ) + 1) % 65536) ((n : ℤ) % 65536) = n + 1 - n :=
    csnDiff_residues (by omega) (by omega)
  refine ⟨rfl, ⟨by rw [h.config], ?_⟩, ?_⟩
  · have hcast : (((growingTsu (n + 1)).sequenceNumber : ℕ) : ℤ) = ((n : ℤ) + 1) % 65536 := by
      simp [growingTsu]
    have hmax : ((s.maxTsuSeqNum : ℕ) : ℤ) = (n : ℤ) % 65536 := by rw [h.maxTsu]; omega
    rw [hcast, hmax, hdiff]
    omega
  · rintro ⟨-, hqos, -⟩
    rw [h.config] at hqos
    cases hqos

theorem next (h : Grown n s) (hroom : 127 * n + 127 < 4294967296) :
    Grown (n + 1) (s.next (.recv (growingTsu (n + 1)) {})) := by
  obtain ⟨hdelay, hmax, hconfig, hcids, -⟩ := h.accepts.next {}
  have hspec : ∀ p ∈ [(0, 0), (2, 127)],
      leastDelay [0, 2] [0, 127] s.emulateDelay ≤
        add32 (s.emulateDelay p.1) (delayChange p.2) ∧ _ :=
    fun p hp => emulateDelays_delay (by decide) rfl hp
  have hfirst := hspec (0, 0) (by simp)
  have hsecond := hspec (2, 127) (by simp)
  have h0 : delayChange 0 = 0 := rfl
  have h127 : delayChange 127 = 127 := rfl
  simp only [h.first, h.second, h0, h127, add32] at hfirst hsecond
  rw [h.cids] at hdelay
  refine ⟨hconfig.trans h.config, hcids.trans h.cids, hmax, ?_, ?_⟩
  · rw [hdelay]
    exact hfirst.2.trans (by omega)
  · rw [hdelay]
    exact hsecond.2.trans (by omega)

theorem reached (hn : 127 * n < 4294967296) :
    ∃ es s, machine.Reaches emptyQueues es s ∧ Grown n s := by
  induction n with
  | zero => exact ⟨[], emptyQueues, .nil, rfl, rfl, rfl, rfl, rfl⟩
  | succ n ih =>
    obtain ⟨es, s, hs, h⟩ := ih (by omega)
    have henabled : machine.enabled s (.recv (growingTsu (n + 1)) {}) := h.enabled
    exact ⟨_, _, hs.snoc _ henabled, h.next (by omega)⟩

end Grown

/-- After 33818640 TSUs the delay of the second link wraps. -/
theorem emulated_delay_wraps :
    ∃ es s, machine.Reaches emptyQueues es s ∧ s.enabled (.recv (growingTsu 33818641) {}) ∧
      s.Accepts (growingTsu 33818641) ∧ s.emulateDelay 2 = 4294967280 ∧
      s.delayOffsets (growingTsu 33818641) ≠ s.delayChanges (growingTsu 33818641) {} := by
  obtain ⟨es, s, hs, h⟩ := Grown.reached (n := 33818640) (by decide)
  have hdelay : s.emulateDelay 2 = 4294967280 := h.second
  refine ⟨es, s, hs, h.enabled, h.accepts, hdelay, ?_⟩
  intro heq
  have hfits := (h.accepts.changes_iff {} h.enabled (by decide) h.cids).mp heq (2, 127)
    (by simp [growingTsu])
  have h127 : delayChange 127 = 127 := rfl
  rw [hdelay, h127] at hfits
  omega

end Endpoint
end NetGymSim.Gma

import NetGymSim.Gma.QueueOrder

/-!
# The receiver seen from the sender's sequence

`View` is what an observer of both ends knows: which indices were lost on a link,
which have come, and what was last seen there. `Tracks v r` relates the receiver to
it. A further condition `W` on the log and the queues decides which serial
comparisons are exact; `tracks_keeps` and `Tracks.arrive` then carry both through the
release functions and through `InOrderDelivery`.
-/

namespace NetGymSim.Gma
open NetGymSim.Lib

structure View where
  cids : List ℕ
  useLsn : Bool
  gap : ℕ → ℕ → Prop
  came : ℕ → ℕ → Prop
  seen : ℕ → ℕ
  lastSn : ℕ → ℕ
  lastLocalSn : ℕ → ℕ

/-- A delivery past a gap on the strength of the LSNs: all of the gap was lost on that link. -/
def SkipsOnlyLost (gap : ℕ → ℕ → Prop) (d : Delivery ℕ) : Prop :=
  d.path = .lsnTest ∨ d.path = .marked →
    ∀ k : ℕ, 1 ≤ k → (k : ℤ) ≤ snDiff d.gmaHeader.sequenceNumber d.expectedSn →
      k ≤ d.packet ∧ gap d.gmaHeader.connectionId (d.packet - k)

structure Tracks (v : View) (r : Receiver ℕ) : Prop where
  cids : r.cids = v.cids
  useLsn : r.useLsnReordering = v.useLsn
  enabled : r.enableReordering = true
  noSteer : r.newLinkCid = noCid
  reserved : noCid ∉ r.cids
  unregistered : ∀ cid, cid ∉ r.cids → r.queue cid = []
  last : ∀ cid, (r.linkParams cid).gmaRxLastSn = v.lastSn cid ∧
    (r.linkParams cid).gmaRxLastLocalSn = v.lastLocalSn cid
  expected : r.gmaRxExpectedSn = r.nextIndex % 16777216
  queues : Queues v.gap v.came v.seen r.nextIndex r.queue
  handed : ∀ d ∈ r.forwarded, d.gmaHeader.sequenceNumber = d.packet % 16777216 ∧
    v.came d.gmaHeader.connectionId d.packet
  skips : ∀ d ∈ r.forwarded, SkipsOnlyLost v.gap d

namespace Tracks
variable {v : View} {r : Receiver ℕ} {cid : ℕ} {item : RxQueueItem ℕ}
  {rest : List (RxQueueItem ℕ)}

theorem mem_cids (h : Tracks v r) (hq : r.queue cid = item :: rest) : cid ∈ r.cids := by
  by_contra hn
  rw [h.unregistered cid hn] at hq
  cases hq

theorem front (h : Tracks v r) (hq : r.queue cid = item :: rest) :
    item.gmaHeader.sequenceNumber = item.packet % 16777216 ∧ item.gmaHeader.connectionId = cid ∧
      item.packet < v.seen cid ∧ v.came cid item.packet :=
  h.queues.items cid item (by rw [hq]; exact List.mem_cons_self)

theorem nextIndex_release (r : Receiver ℕ) (cid : ℕ) (item : RxQueueItem ℕ) {path : ReleasePath}
    (hp : path ≠ .late) : (r.release cid item path).nextIndex = item.packet + 1 := by
  show nextIndex (r.forwarded ++ [_]) = _
  rw [nextIndex_append, if_neg hp]

theorem nextIndex_releaseLate (r : Receiver ℕ) (cid : ℕ) (item : RxQueueItem ℕ) :
    (r.releaseLate cid item).nextIndex = r.nextIndex := by
  show nextIndex (r.forwarded ++ [_]) = _
  rw [nextIndex_append, if_pos rfl]
  rfl

theorem pop_unregistered (h : Tracks v r) (cid : ℕ) :
    ∀ d, d ∉ r.cids → (r.pop cid).queue d = [] := by
  intro d hd
  rw [r.pop_queue]
  by_cases hdc : d = cid
  · subst hdc
    rw [Function.update_self, h.unregistered d hd, List.tail_nil]
  · rw [Function.update_of_ne hdc, h.unregistered d hd]

theorem pop_last (h : Tracks v r) (cid : ℕ) (d : ℕ) :
    ((r.pop cid).linkParams d).gmaRxLastSn = v.lastSn d ∧
      ((r.pop cid).linkParams d).gmaRxLastLocalSn = v.lastLocalSn d := by
  by_cases hd : d = cid
  · subst hd
    simpa [Receiver.pop] using h.last d
  · simpa [Receiver.pop, hd] using h.last d

theorem pop_queues (h : Tracks v r) (hq : r.queue cid = item :: rest) {next : ℕ}
    (hn : r.nextIndex ≤ next) (hi : item.packet < next) :
    Queues v.gap v.came v.seen next (r.pop cid).queue := by
  rw [r.pop_queue, hq]
  exact h.queues.pop hq hn hi

theorem release (h : Tracks v r) (hq : r.queue cid = item :: rest) (hn : r.nextIndex ≤ item.packet)
    {path : ReleasePath} (hp : path ≠ .late)
    (hskip : SkipsOnlyLost v.gap ⟨item.packet, item.gmaHeader, path, r.gmaRxExpectedSn⟩) :
    Tracks v (r.release cid item path) := by
  obtain ⟨hsn, hcid, -, hcame⟩ := h.front hq
  have hnext := nextIndex_release r cid item hp
  refine ⟨h.cids, h.useLsn, h.enabled, h.noSteer, h.reserved, h.pop_unregistered cid,
    h.pop_last cid, ?_, ?_, ?_, ?_⟩
  · rw [hnext]
    show nextSn item.gmaHeader.sequenceNumber = _
    rw [nextSn_eq, hsn, Nat.mod_add_mod]
  · rw [hnext]
    exact h.pop_queues hq (by omega) (by omega)
  · intro d hd
    rcases List.mem_append.mp hd with hd | hd
    · exact h.handed d hd
    · rw [List.mem_singleton.mp hd]
      exact ⟨hsn, by rw [hcid]; exact hcame⟩
  · intro d hd
    rcases List.mem_append.mp hd with hd | hd
    · exact h.skips d hd
    · rw [List.mem_singleton.mp hd]
      exact hskip

theorem releaseLate (h : Tracks v r) (hq : r.queue cid = item :: rest)
    (hlt : item.packet < r.nextIndex) : Tracks v (r.releaseLate cid item) := by
  obtain ⟨hsn, hcid, -, hcame⟩ := h.front hq
  have hnext := nextIndex_releaseLate r cid item
  refine ⟨h.cids, h.useLsn, h.enabled, h.noSteer, h.reserved, h.pop_unregistered cid,
    h.pop_last cid, ?_, ?_, ?_, ?_⟩
  · rw [hnext]
    exact h.expected
  · rw [hnext]
    exact h.pop_queues hq le_rfl hlt
  · intro d hd
    rcases List.mem_append.mp hd with hd | hd
    · exact h.handed d hd
    · rw [List.mem_singleton.mp hd]
      exact ⟨hsn, by rw [hcid]; exact hcame⟩
  · intro d hd
    rcases List.mem_append.mp hd with hd | hd
    · exact h.skips d hd
    · rw [List.mem_singleton.mp hd]
      rintro (hp | hp) <;> cases hp

/-- Every index that is compared with the expected one is less than half the space away. -/
def Near (next : ℕ) (queue : ℕ → List (RxQueueItem ℕ)) : Prop :=
  ∀ cid, ∀ item ∈ queue cid, item.packet < next + 8388608 ∧ next < item.packet + 8388608

theorem snDiff_front (h : Tracks v r) (hnear : Near r.nextIndex r.queue)
    (hq : r.queue cid = item :: rest) :
    snDiff item.gmaHeader.sequenceNumber r.gmaRxExpectedSn = (item.packet : ℤ) - r.nextIndex := by
  obtain ⟨h1, h2⟩ := hnear cid item (by rw [hq]; exact List.mem_cons_self)
  rw [(h.front hq).1, h.expected]
  exact snDiff_residues h1 h2

theorem eq_of_expected (h : Tracks v r) (hnear : Near r.nextIndex r.queue)
    (hq : r.queue cid = item :: rest) (he : item.gmaHeader.sequenceNumber = r.gmaRxExpectedSn) :
    item.packet = r.nextIndex := by
  have hd := h.snDiff_front hnear hq
  rw [he, snDiff, wrapDiff_self _ _ (by norm_num)] at hd
  omega

theorem marked_skips (h : Tracks v r) (hnear : Near r.nextIndex r.queue)
    (hq : r.queue cid = item :: rest) (hi : item.inOrder) (path : ReleasePath) :
    SkipsOnlyLost v.gap ⟨item.packet, item.gmaHeader, path, r.gmaRxExpectedSn⟩ := by
  intro _ k hk1 hk
  have hd := h.snDiff_front hnear hq
  have hk' : (k : ℤ) ≤ (item.packet : ℤ) - r.nextIndex := by rw [← hd]; exact hk
  rw [show (Delivery.mk item.packet item.gmaHeader path r.gmaRxExpectedSn).gmaHeader.connectionId =
    cid from (h.front hq).2.1]
  exact ⟨by show k ≤ item.packet; omega,
    h.queues.marked_front hq hi (j := item.packet - k) (by omega) (by omega)⟩

end Tracks

/-- `Tracks` together with `W` is kept by the release functions, for any `W` that makes the
comparisons exact and survives the removal of a chosen front. -/
theorem tracks_keeps (v : View) (W : List (Delivery ℕ) → (ℕ → List (RxQueueItem ℕ)) → Prop)
    (near : ∀ log queue, W log queue → Tracks.Near (nextIndex log) queue)
    (release : ∀ r item rest cid path, Tracks v r → W r.forwarded r.queue →
      r.queue (r.scanFronts r.cids (maxGmaSn, cid)).2 = item :: rest →
      r.nextIndex ≤ item.packet → path ≠ .late →
      W (r.forwarded ++ [⟨item.packet, item.gmaHeader, path, r.gmaRxExpectedSn⟩])
        (Function.update r.queue (r.scanFronts r.cids (maxGmaSn, cid)).2 rest))
    (late : ∀ r item rest cid, Tracks v r → W r.forwarded r.queue →
      r.queue cid = item :: rest → item.packet < r.nextIndex →
      W (r.forwarded ++ [⟨item.packet, item.gmaHeader, .late, r.gmaRxExpectedSn⟩])
        (Function.update r.queue cid rest)) :
    Keeps (fun r => Tracks v r ∧ W r.forwarded r.queue) where
  unregistered _ h := h.1.unregistered
  failed _ h := ⟨⟨h.1.cids, h.1.useLsn, h.1.enabled, h.1.noSteer, h.1.reserved, h.1.unregistered,
    h.1.last, h.1.expected, h.1.queues, h.1.handed, h.1.skips⟩, h.2⟩
  counter _ _ h := ⟨⟨h.1.cids, h.1.useLsn, h.1.enabled, h.1.noSteer, h.1.reserved,
    h.1.unregistered, h.1.last, h.1.expected, h.1.queues, h.1.handed, h.1.skips⟩, h.2⟩
  timeout _ _ h := ⟨⟨h.1.cids, h.1.useLsn, h.1.enabled, h.1.noSteer, h.1.reserved,
    h.1.unregistered, h.1.last, h.1.expected, h.1.queues, h.1.handed, h.1.skips⟩, h.2⟩
  updateTime _ _ h := ⟨⟨h.1.cids, h.1.useLsn, h.1.enabled, h.1.noSteer, h.1.reserved,
    h.1.unregistered, h.1.last, h.1.expected, h.1.queues, h.1.handed, h.1.skips⟩, h.2⟩
  timer _ _ h := ⟨⟨h.1.cids, h.1.useLsn, h.1.enabled, h.1.noSteer, h.1.reserved,
    h.1.unregistered, h.1.last, h.1.expected, h.1.queues, h.1.handed, h.1.skips⟩, h.2⟩
  minSn r item rest best h hs _ hq hd := by
    have hscan := r.scanAllFronts_eq hs
    have hle : r.nextIndex ≤ item.packet := by
      have := h.1.snDiff_front (near _ _ h.2) hq
      omega
    refine ⟨h.1.release hq hle (by decide) ?_, ?_⟩
    · rintro (hp | hp) <;> cases hp
    · have hw := release r item rest noCid .minSn h.1 h.2 (by rw [hscan]; exact hq) hle (by decide)
      show W (r.forwarded ++ [_]) (r.pop best.2).queue
      rw [r.pop_queue, hq]
      rw [hscan] at hw
      exact hw
  minSnLate r item rest best h _ _ hq hd := by
    have hlt : item.packet < r.nextIndex := by
      have := h.1.snDiff_front (near _ _ h.2) hq
      omega
    refine ⟨h.1.releaseLate hq hlt, ?_⟩
    show W (r.forwarded ++ [_]) (r.pop best.2).queue
    rw [r.pop_queue, hq]
    exact late r item rest best.2 h.1 h.2 hq hlt
  inOrder r item rest best cid path h hs _ hq hsn hpath := by
    have hd := h.1.snDiff_front (near _ _ h.2) hq
    have hnotlate : path ≠ .late := by
      rintro rfl
      exact hpath
    have hle : r.nextIndex ≤ item.packet := by
      cases path with
      | queued => exact (h.1.eq_of_expected (near _ _ h.2) hq (hsn ▸ hpath)).ge
      | marked => rw [← hsn] at hd; have := hpath.2.1; omega
      | expired => rw [← hsn] at hd; have := hpath.2.1; omega
      | _ => exact hpath.elim
    have hskip : SkipsOnlyLost v.gap
        ⟨item.packet, item.gmaHeader, path, r.gmaRxExpectedSn⟩ := by
      intro hp
      rcases hp with hp | hp
      · obtain rfl : path = .lsnTest := hp
        exact hpath.elim
      · obtain rfl : path = .marked := hp
        exact h.1.marked_skips (near _ _ h.2) hq hpath.2.2 .marked (.inr rfl)
    refine ⟨h.1.release hq hle hnotlate hskip, ?_⟩
    have hw := release r item rest cid path h.1 h.2 (by rw [hs]; exact hq) hle hnotlate
    show W (r.forwarded ++ [_]) (r.pop best.2).queue
    rw [r.pop_queue, hq]
    rw [hs] at hw
    exact hw
  late r item rest best cid h _ _ hq hsn _ hlt := by
    have hd := h.1.snDiff_front (near _ _ h.2) hq
    rw [← hsn] at hd
    have hlt : item.packet < r.nextIndex := by omega
    refine ⟨h.1.releaseLate hq hlt, ?_⟩
    show W (r.forwarded ++ [_]) (r.pop best.2).queue
    rw [r.pop_queue, hq]
    exact late r item rest best.2 h.1 h.2 hq hlt
  stop r cid item rest h hc hq hnew _ := by
    have h1 : r.newLinkCid = item.gmaHeader.connectionId := hnew
    rw [h.1.noSteer, (h.1.front hq).2.1] at h1
    exact absurd (h1 ▸ hc) h.1.reserved

namespace View
variable (v : View) (cid m : ℕ)

def arrived : View :=
  { v with
    came := fun c j => v.came c j ∨ (c = cid ∧ j = m)
    seen := Function.update v.seen cid (m + 1) }

def record (gmaHeader : GmaHeader) : View :=
  { v with
    lastSn := Function.update v.lastSn cid gmaHeader.sequenceNumber
    lastLocalSn := Function.update v.lastLocalSn cid gmaHeader.localSequenceNumber }

end View

namespace Tracks
variable {v : View} {r : Receiver ℕ} {cid m : ℕ} {gmaHeader : GmaHeader}

theorem record (h : Tracks v r) (gmaHeader : GmaHeader) (cid : ℕ) :
    Tracks (v.record cid gmaHeader) (r.recordLast gmaHeader cid) := by
  have hq := r.recordLast_queue gmaHeader cid
  refine ⟨h.cids, h.useLsn, h.enabled, h.noSteer, h.reserved, ?_, ?_, h.expected, ?_, h.handed,
    h.skips⟩
  · rw [hq]
    exact h.unregistered
  · intro d
    by_cases hd : d = cid
    · subst hd
      simp [Receiver.recordLast, View.record]
    · simpa [Receiver.recordLast, View.record, hd] using h.last d
  · rw [hq]
    exact h.queues

theorem learn {v' : View} (h : Tracks v r) (hc : v'.cids = v.cids) (hu : v'.useLsn = v.useLsn)
    (hg : ∀ c j, v.gap c j → v'.gap c j) (hcame : ∀ c j, v.came c j → v'.came c j)
    (hs : v'.seen = v.seen) (hl : ∀ c, v'.lastSn c = v.lastSn c)
    (hll : ∀ c, v'.lastLocalSn c = v.lastLocalSn c) : Tracks v' r := by
  refine ⟨h.cids.trans hc.symm, h.useLsn.trans hu.symm, h.enabled, h.noSteer, h.reserved,
    h.unregistered, ?_, h.expected, ?_, ?_, ?_⟩
  · intro c
    rw [hl, hll]
    exact h.last c
  · rw [hs]
    exact h.queues.mono hg hcame
  · intro d hd
    exact ⟨(h.handed d hd).1, hcame _ _ (h.handed d hd).2⟩
  · intro d hd hp k hk1 hk
    obtain ⟨h1, h2⟩ := h.skips d hd hp k hk1 hk
    exact ⟨h1, hg _ _ h2⟩

theorem forward (h : Tracks v r) (hsn : gmaHeader.sequenceNumber = m % 16777216)
    (hcid : gmaHeader.connectionId = cid) (hseen : v.seen cid ≤ m) (hle : r.nextIndex ≤ m)
    {path : ReleasePath} (hp : path ≠ .late) {sn : ℕ} (hnext : nextSn sn = (m + 1) % 16777216)
    (hskip : SkipsOnlyLost v.gap ⟨m, gmaHeader, path, r.gmaRxExpectedSn⟩) :
    Tracks (v.arrived cid m) ((r.measureAndForward m gmaHeader path).expect sn) := by
  have hidx : ((r.measureAndForward m gmaHeader path).expect sn).nextIndex = m + 1 := by
    show nextIndex (r.forwarded ++ [_]) = _
    rw [nextIndex_append, if_neg hp]
  refine ⟨h.cids, h.useLsn, h.enabled, h.noSteer, h.reserved, h.unregistered, h.last, ?_, ?_, ?_,
    ?_⟩
  · rw [hidx]
    exact hnext
  · rw [hidx]
    exact (h.queues.mono (fun _ _ hg => hg) (fun _ _ hc => .inl hc)).see (by omega) (by omega) hseen
  · intro d hd
    rcases List.mem_append.mp hd with hd | hd
    · exact ⟨(h.handed d hd).1, .inl (h.handed d hd).2⟩
    · rw [List.mem_singleton.mp hd]
      exact ⟨hsn, .inr ⟨hcid, rfl⟩⟩
  · intro d hd
    rcases List.mem_append.mp hd with hd | hd
    · exact h.skips d hd
    · rw [List.mem_singleton.mp hd]
      exact hskip

theorem enqueue (h : Tracks v r) (hc : cid ∈ r.cids)
    (hsn : gmaHeader.sequenceNumber = m % 16777216)
    (hcid : gmaHeader.connectionId = cid) (hseen : v.seen cid ≤ m) (hle : r.nextIndex ≤ m)
    {inOrder : Bool} (hgap : inOrder → ∀ j, v.seen cid ≤ j → j < m → v.gap cid j) :
    Tracks (v.arrived cid m) (r.enqueue m gmaHeader cid inOrder) := by
  refine ⟨h.cids, h.useLsn, h.enabled, h.noSteer, h.reserved, ?_, ?_, h.expected, ?_, ?_, h.skips⟩
  · intro d hd
    have hdc : d ≠ cid := fun e => hd (e ▸ hc)
    exact (r.push_queue_other _ hdc).trans (h.unregistered d hd)
  · intro d
    by_cases hd : d = cid
    · subst hd
      simpa [Receiver.enqueue, Receiver.push, View.arrived] using h.last d
    · simpa [Receiver.enqueue, Receiver.push, View.arrived, hd] using h.last d
  · show Queues _ _ _ r.nextIndex (r.push cid _).queue
    rw [r.push_queue]
    exact (h.queues.mono (fun _ _ hg => hg) (fun _ _ hc => .inl hc)).push
      ⟨m, gmaHeader, inOrder, r.now⟩ hseen hle hsn hcid (.inr ⟨rfl, rfl⟩) hgap
  · intro d hd
    exact ⟨(h.handed d hd).1, .inl (h.handed d hd).2⟩

theorem drop (h : Tracks v r) (hseen : v.seen cid ≤ m) (hlt : m < r.nextIndex) :
    Tracks (v.arrived cid m) r :=
  ⟨h.cids, h.useLsn, h.enabled, h.noSteer, h.reserved, h.unregistered, h.last, h.expected,
    (h.queues.mono (fun _ _ hg => hg) (fun _ _ hc => .inl hc)).see le_rfl hlt hseen,
    fun d hd => ⟨(h.handed d hd).1, .inl (h.handed d hd).2⟩, h.skips⟩

theorem arrive {W : List (Delivery ℕ) → (ℕ → List (RxQueueItem ℕ)) → Prop}
    (k : Keeps fun r => Tracks (v.arrived cid m) r ∧ W r.forwarded r.queue)
    (h : Tracks v r) (hW : W r.forwarded r.queue) (hc : cid ∈ r.cids)
    (hsn : gmaHeader.sequenceNumber = m % 16777216) (hcid : gmaHeader.connectionId = cid)
    (hseen : v.seen cid ≤ m) (hlo : m < r.nextIndex + 8388608) (hhi : r.nextIndex < m + 8388608)
    (hgap : r.lsnTest gmaHeader cid → ∀ j, v.seen cid ≤ j → j < m → v.gap cid j)
    (expected : m = r.nextIndex →
      W (r.forwarded ++ [⟨m, gmaHeader, .expected, r.gmaRxExpectedSn⟩]) r.queue)
    (lost : r.nextIndex < m → r.lsnTest gmaHeader cid → r.queue cid = [] →
      W (r.forwarded ++ [⟨m, gmaHeader, .lsnTest, r.gmaRxExpectedSn⟩]) r.queue)
    (push : ∀ inOrder, r.nextIndex < m → W r.forwarded
      (Function.update r.queue cid (r.queue cid ++ [⟨m, gmaHeader, inOrder, r.now⟩]))) :
    Tracks ((v.arrived cid m).record cid gmaHeader) (r.receive m gmaHeader) ∧
      W (r.receive m gmaHeader).forwarded (r.receive m gmaHeader).queue := by
  have hdiff : snDiff gmaHeader.sequenceNumber r.gmaRxExpectedSn = (m : ℤ) - r.nextIndex := by
    rw [hsn, h.expected]
    exact snDiff_residues hlo hhi
  have heq : gmaHeader.sequenceNumber = r.gmaRxExpectedSn → m = r.nextIndex := by
    intro he
    rw [he, snDiff, wrapDiff_self _ _ (by norm_num)] at hdiff
    omega
  have hgt : gmaHeader.sequenceNumber ≠ r.gmaRxExpectedSn →
      0 ≤ snDiff gmaHeader.sequenceNumber r.gmaRxExpectedSn → r.nextIndex < m := by
    intro hne h0
    have : m ≠ r.nextIndex := fun e => hne (by rw [hsn, h.expected, e])
    omega
  have hcid0 : cid ≠ noCid := fun e => h.reserved (e ▸ hc)
  obtain ⟨r', hr', he⟩ := k.inOrderDelivery (fun _ hP => hP.1.noSteer) (r := r)
    m gmaHeader hcid0 h.noSteer
    (fun he => ⟨h.forward hsn hcid hseen (heq he).ge (by decide)
      (by rw [h.expected, nextSn_eq, Nat.mod_add_mod, heq he]) (by rintro (hp | hp) <;> cases hp),
      expected (heq he)⟩)
    (fun hlt => ⟨h.drop hseen (by omega), hW⟩)
    (fun hne h0 hl hnil => ⟨h.forward hsn hcid hseen (hgt hne h0).le (by decide)
      (by rw [hsn, nextSn_eq, Nat.mod_add_mod]) (by
        intro _ k hk1 hk
        have hk' : (k : ℤ) ≤ (m : ℤ) - r.nextIndex := by rw [← hdiff]; exact hk
        have hs := h.queues.seen_le_of_nil hnil
        rw [show (Delivery.mk m gmaHeader .lsnTest r.gmaRxExpectedSn).gmaHeader.connectionId = cid
          from hcid]
        exact ⟨by show k ≤ m; omega, hgap hl (m - k) (by omega) (by omega)⟩),
      lost (hgt hne h0) hl hnil⟩)
    (fun hne h0 hl _ msgs => by
      have hf : Tracks v { r with failedAsserts := msgs } := ⟨h.cids, h.useLsn, h.enabled,
        h.noSteer, h.reserved, h.unregistered, h.last, h.expected, h.queues, h.handed, h.skips⟩
      refine ⟨hf.enqueue hc hsn hcid hseen (hgt hne h0).le (fun _ => hgap hl), ?_⟩
      show W r.forwarded (Receiver.push { r with failedAsserts := msgs } cid _).queue
      rw [Receiver.push_queue]
      exact push true (hgt hne h0))
    (fun hne h0 => by
      refine ⟨h.enqueue hc hsn hcid hseen (hgt hne h0).le (fun hf => by cases hf), ?_⟩
      show W r.forwarded (r.push cid _).queue
      rw [r.push_queue]
      exact push false (hgt hne h0))
  have hrec : r.receive m gmaHeader = r'.recordLast gmaHeader cid := by
    unfold Receiver.receive
    rw [if_pos h.enabled, hcid, he]
  rw [hrec]
  refine ⟨hr'.1.record gmaHeader cid, ?_⟩
  rw [r'.recordLast_queue]
  exact hr'.2

end Tracks
end NetGymSim.Gma

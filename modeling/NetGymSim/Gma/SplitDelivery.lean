import NetGymSim.Gma.SplitLinks

/-!
# Split mode: delivery in order, and what the LSN test skips

With one link per packet, an LSN that advances as far as the SN does proves that the
link carried every index in between. While the SNs that are compared lie within half
the SN space of each other, deliveries are strictly increasing and the LSN test skips
lost packets only; a link that has been silent for 2^23 packets breaks both.
-/

namespace NetGymSim.Gma
open NetGymSim.Lib
namespace Net

def Split (sent : List (List ℕ)) : Prop := ∀ cids ∈ sent, ∃ cid, cids = [cid]

theorem Split.onLink {sent : List (List ℕ)} (h : Split sent) {cid j : ℕ} (hj : OnLink sent cid j) :
    sent[j]? = some [cid] := by
  obtain ⟨cs, hcs, hc⟩ := hj
  obtain ⟨d, rfl⟩ := h cs (List.mem_of_getElem? hcs)
  rw [hcs, List.mem_singleton.mp hc]

def LostOnLink (s : Net) (cid j : ℕ) : Prop := s.sent[j]? = some [cid] ∧ (cid, j) ∈ s.lost

def view (s : Net) : View where
  cids := s.rx.cids
  useLsn := s.rx.useLsnReordering
  gap := s.LostOnLink
  came := fun c j => (c, j) ∈ s.received
  seen := s.seen
  lastSn := fun c => (s.seen c + 16777215) % 16777216
  lastLocalSn := fun c => (rank s.sent c (s.seen c) + 255) % 256

variable {s : Net} {cid m : ℕ} {gmaHeader : GmaHeader} {rest : List (ℕ × GmaHeader)}

theorem lsnDiff_count {a b n : ℕ} (hb : a ≤ b) (hn : b ≤ a + n)
    (h : lsnDiff (b % 256 : ℕ) ((a + 255) % 256 : ℕ) = (n : ℤ) + 1) : b = a + n := by
  have hc := wrapDiff_cases 128 (b % 256 : ℕ) ((a + 255) % 256 : ℕ)
  unfold lsnDiff at h
  rw [h] at hc
  push_cast at hc
  omega

theorem gap_of_lsnTest (hw : Wired s) (ht : Tracks s.view s.rx) (hsplit : Split s.sent)
    (hch : s.channel cid = (m, gmaHeader) :: rest) (hwin : m + 1 < s.seen cid + 8388608)
    (hl : s.rx.lsnTest gmaHeader cid) : ∀ j, s.seen cid ≤ j → j < m → s.LostOnLink cid j := by
  obtain ⟨hhead, hon, hseen, -⟩ := hw.flight cid (m, gmaHeader)
    (by rw [hch]; exact List.mem_cons_self)
  obtain ⟨hlast, hlastL⟩ := ht.last cid
  have hsn : snDiff gmaHeader.sequenceNumber (s.rx.linkParams cid).gmaRxLastSn =
      ((m - s.seen cid : ℕ) : ℤ) + 1 := by
    have h1 : gmaHeader.sequenceNumber = (m + 16777216) % 16777216 := by
      rw [Nat.add_mod_right]
      exact congrArg GmaHeader.sequenceNumber hhead
    rw [h1, hlast]
    show snDiff _ ((s.seen cid + 16777215) % 16777216 : ℕ) = _
    rw [snDiff_residues (by omega) (by omega)]
    omega
  have hlsn : lsnDiff gmaHeader.localSequenceNumber (s.rx.linkParams cid).gmaRxLastLocalSn =
      ((m - s.seen cid : ℕ) : ℤ) + 1 := by
    have h2 := (of_decide_eq_true hl).2
    omega
  have hrank : rank s.sent cid m = rank s.sent cid (s.seen cid) + (m - s.seen cid) := by
    have hle : rank s.sent cid (s.seen cid) ≤ rank s.sent cid (s.seen cid + (m - s.seen cid)) ∧ _ :=
      rank_le_add (s.seen cid) (m - s.seen cid)
    rw [Nat.add_sub_cancel' hseen] at hle
    refine lsnDiff_count hle.1 hle.2 ?_
    rw [← hlsn, hlastL]
    exact congrArg (fun h : GmaHeader => lsnDiff h.localSequenceNumber _) hhead.symm
  intro j hj hjm
  have hrank' : rank s.sent cid (s.seen cid + (m - s.seen cid)) =
      rank s.sent cid (s.seen cid) + (m - s.seen cid) := by rwa [Nat.add_sub_cancel' hseen]
  have hall := onLink_of_rank hrank' (by have := hon.lt; omega) j hj (by omega)
  refine ⟨hsplit.onLink hall, ?_⟩
  rcases hw.account cid j hall with h | h | h
  · exact h
  · omega
  · have hord := hw.order cid
    rw [hch, List.map_cons, List.pairwise_cons] at hord
    rw [hch, List.map_cons, List.mem_cons] at h
    rcases h with h | h
    · omega
    · have := hord.1 j h
      omega

theorem not_lost_of_queued (hw : Wired s) (ht : Tracks s.view s.rx) (c cid : ℕ) :
    ∀ a ∈ s.rx.queue c, ¬ s.LostOnLink cid a.packet := by
  intro a ha ⟨hsent, hl⟩
  have hcame : (c, a.packet) ∈ s.received := (ht.queues.items c a ha).2.2.2
  obtain ⟨⟨cs, hcs, hc⟩, _⟩ := hw.received c a.packet hcame
  rw [hsent] at hcs
  obtain rfl := Option.some.inj hcs
  obtain rfl := List.mem_singleton.mp hc
  exact (hw.lost c _ hl).2 hcame

theorem tracks_view_arrive (hw : Wired s) (hch : s.channel cid = (m, gmaHeader) :: rest)
    (h : Tracks ((s.view.arrived cid m).record cid gmaHeader) (s.rx.receive m gmaHeader)) :
    Tracks (s.arrive cid).view (s.arrive cid).rx := by
  obtain ⟨hhead, hon, -, -⟩ := hw.flight cid (m, gmaHeader)
    (by rw [hch]; exact List.mem_cons_self)
  have harr : s.arrive cid = { s with
      rx := s.rx.receive m gmaHeader
      channel := Function.update s.channel cid rest
      received := s.received ++ [(cid, m)]
      seen := Function.update s.seen cid (m + 1) } := by
    unfold Net.arrive
    rw [hch]
  rw [harr]
  refine h.learn h.cids h.useLsn (fun c j hg => hg) ?_ rfl ?_ ?_
  · rintro c j (hr | ⟨rfl, rfl⟩)
    · exact List.mem_append_left _ hr
    · exact List.mem_append_right _ (List.mem_singleton_self _)
  · intro c
    show (Function.update s.seen cid (m + 1) c + 16777215) % 16777216 =
      Function.update s.view.lastSn cid gmaHeader.sequenceNumber c
    by_cases hc : c = cid
    · subst hc
      rw [Function.update_self, Function.update_self,
        congrArg GmaHeader.sequenceNumber hhead]
      show (m + 1 + 16777215) % 16777216 = m % 16777216
      omega
    · rw [Function.update_of_ne hc, Function.update_of_ne hc]
      rfl
  · intro c
    show (rank s.sent c (Function.update s.seen cid (m + 1) c) + 255) % 256 =
      Function.update s.view.lastLocalSn cid gmaHeader.localSequenceNumber c
    by_cases hc : c = cid
    · subst hc
      rw [Function.update_self, Function.update_self, rank_succ_of_onLink hon,
        congrArg GmaHeader.localSequenceNumber hhead]
      show (rank s.sent c m + 1 + 255) % 256 = rank s.sent c m % 256
      omega
    · rw [Function.update_of_ne hc, Function.update_of_ne hc]
      rfl

/-- The network, its observer and a condition `W` on the log and the queues. -/
structure Follows (W : List (Delivery ℕ) → (ℕ → List (RxQueueItem ℕ)) → Prop) (s : Net) : Prop where
  wired : Wired s
  tracks : Tracks s.view s.rx
  cond : W s.rx.forwarded s.rx.queue

/-- No event changes which links there are and whether the LSN test is on. -/
def SameSetup (s t : Net) : Prop :=
  t.rx.cids = s.rx.cids ∧ t.rx.useLsnReordering = s.rx.useLsnReordering

theorem Follows.step {W : List (Delivery ℕ) → (ℕ → List (RxQueueItem ℕ)) → Prop}
    (h : Follows W s) (e : NetEvent) (he : s.enabled e) (hne : ∀ cid, e ≠ .arrive cid)
    (k : Keeps fun r => Tracks s.view r ∧ W r.forwarded r.queue) :
    Follows W (s.next e) ∧ SameSetup s (s.next e) := by
  cases e with
  | send cids =>
    have hrx : (s.send cids).rx = s.rx ∧ (s.send cids).lost = s.lost ∧
        (s.send cids).received = s.received ∧ (s.send cids).seen = s.seen := by
      unfold Net.send
      rw [sendByCid_fold cids he.2.1]
      exact ⟨rfl, rfl, rfl, rfl⟩
    obtain ⟨hr, hl, hc, hs⟩ := hrx
    have hsent : (s.send cids).sent = s.sent ++ [cids] := rfl
    refine ⟨⟨h.wired.send he.2.1, ?_, ?_⟩, congrArg Receiver.cids hr,
      congrArg Receiver.useLsnReordering hr⟩
    swap
    · show W (s.send cids).rx.forwarded (s.send cids).rx.queue
      rw [hr]
      exact h.cond
    show Tracks (s.send cids).view (s.send cids).rx
    rw [hr]
    refine h.tracks.learn (by rw [view, view, hr]) (by rw [view, view, hr]) ?_ ?_ hs ?_ ?_
    · rintro c j ⟨hg1, hg2⟩
      refine ⟨?_, by rw [hl]; exact hg2⟩
      rw [hsent, List.getElem?_append_left (List.getElem?_eq_some_iff.mp hg1).1]
      exact hg1
    · intro c j hj
      show (c, j) ∈ (s.send cids).received
      rw [hc]
      exact hj
    · intro c
      show ((s.send cids).seen c + 16777215) % 16777216 = _
      rw [hs]
      rfl
    · intro c
      show (rank (s.send cids).sent c ((s.send cids).seen c) + 255) % 256 = _
      rw [hs, hsent, rank_append cids (h.wired.seenLe c)]
      rfl
  | lose cid k =>
    have hw := h.wired.lose cid k
    show Follows W (s.lose cid k) ∧ SameSetup s (s.lose cid k)
    unfold Net.lose at hw ⊢
    cases hk : (s.channel cid)[k]? with
    | none => exact ⟨h, rfl, rfl⟩
    | some p =>
      rw [hk] at hw
      refine ⟨⟨hw, ?_, h.cond⟩, rfl, rfl⟩
      exact h.tracks.learn rfl rfl (fun c j hg => ⟨hg.1, List.mem_append_left _ hg.2⟩)
        (fun c j hj => hj) rfl (fun _ => rfl) (fun _ => rfl)
  | arrive cid => exact absurd rfl (hne cid)
  | reorderingTimeout =>
    have hr := k.reorderingTimeoutFires ⟨h.tracks, h.cond⟩
    refine ⟨⟨h.wired.of_rx _, ?_, hr.2⟩, hr.1.cids, hr.1.useLsn⟩
    exact hr.1.learn hr.1.cids hr.1.useLsn (fun _ _ hg => hg) (fun _ _ hj => hj) rfl
      (fun _ => rfl) (fun _ => rfl)
  | linkState cid up =>
    have t := h.tracks
    exact ⟨⟨h.wired.of_rx _, ⟨t.cids, t.useLsn, t.enabled, t.noSteer, t.reserved, t.unregistered,
      t.last, t.expected, t.queues, t.handed, t.skips⟩, h.cond⟩, rfl, rfl⟩
  | wait ns =>
    have t := h.tracks
    exact ⟨⟨h.wired.of_rx _, ⟨t.cids, t.useLsn, t.enabled, t.noSteer, t.reserved, t.unregistered,
      t.last, t.expected, t.queues, t.handed, t.skips⟩, h.cond⟩, rfl, rfl⟩
  | measure params =>
    have t := h.tracks
    exact ⟨⟨h.wired.of_rx _, ⟨t.cids, t.useLsn, t.enabled, t.noSteer, t.reserved, t.unregistered,
      t.last, t.expected, t.queues, t.handed, t.skips⟩, h.cond⟩, rfl, rfl⟩

theorem Tracks.start {cids : List ℕ} (h255 : noCid ∉ cids) (linkUp : ℕ → Bool)
    (params : List MeasureParam) (useLsn : Bool) :
    Tracks (start cids linkUp params useLsn).view (start cids linkUp params useLsn).rx where
  cids := rfl
  useLsn := rfl
  enabled := rfl
  noSteer := rfl
  reserved := h255
  unregistered _ _ := rfl
  last _ := by simp [Net.start, view, rank, maxGmaSn]
  expected := rfl
  queues := ⟨nofun, fun _ => ⟨0, le_rfl, trivial⟩, fun _ => .inl le_rfl⟩
  handed _ h := by cases h
  skips _ h := by cases h

/-! ### Split mode -/

def oneLink (_ : Net) : NetEvent → Prop
  | .send cids => cids.length = 1
  | _ => True

/-- Only SNs below `0xFFFFFF` are used. -/
def belowMaxSn (s : Net) : NetEvent → Prop
  | .send _ => s.sent.length < maxGmaSn
  | _ => True

/-- The arriving index lies less than 2^23 from the expected one and from the last one that
arrived on its link. -/
def inWindow (s : Net) : NetEvent → Prop
  | .arrive cid => ∀ p ∈ (s.channel cid).head?, p.1 < s.rx.nextIndex + 8388608 ∧
      s.rx.nextIndex < p.1 + 8388608 ∧ p.1 + 1 < s.seen cid + 8388608
  | _ => True

def compared (s : Net) (e : NetEvent) : List ℕ :=
  s.rx.nextIndex :: s.rx.queued.flatMap (fun item => [item.packet, item.packet + 1]) ++
    match e with
    | .arrive cid =>
        match s.channel cid with
        | [] => []
        | (m, _) :: _ => [m, m + 1, s.seen cid]
    | _ => []

def comparable (s : Net) (e : NetEvent) : Prop :=
  ∀ x ∈ s.compared e, ∀ y ∈ s.compared e, x < y + 8388608

instance (s : Net) : (e : NetEvent) → Decidable (s.oneLink e)
  | .send cids => inferInstanceAs (Decidable (cids.length = 1))
  | .lose _ _ | .arrive _ | .reorderingTimeout | .linkState _ _ | .wait _ | .measure _ =>
      inferInstanceAs (Decidable True)

instance (s : Net) : (e : NetEvent) → Decidable (s.belowMaxSn e)
  | .send _ => inferInstanceAs (Decidable (s.sent.length < maxGmaSn))
  | .lose _ _ | .arrive _ | .reorderingTimeout | .linkState _ _ | .wait _ | .measure _ =>
      inferInstanceAs (Decidable True)

instance (s : Net) : (e : NetEvent) → Decidable (s.inWindow e)
  | .arrive cid => inferInstanceAs (Decidable (∀ p ∈ (s.channel cid).head?,
      p.1 < s.rx.nextIndex + 8388608 ∧ s.rx.nextIndex < p.1 + 8388608 ∧
        p.1 + 1 < s.seen cid + 8388608))
  | .send _ | .lose _ _ | .reorderingTimeout | .linkState _ _ | .wait _ | .measure _ =>
      inferInstanceAs (Decidable True)

instance (s : Net) (e : NetEvent) : Decidable (s.comparable e) :=
  inferInstanceAs (Decidable (∀ x ∈ s.compared e, ∀ y ∈ s.compared e, x < y + 8388608))

def splitMode : Machine Net NetEvent := machine.restrict oneLink

instance (s : Net) (e : NetEvent) : Decidable (splitMode.enabled s e) :=
  inferInstanceAs (Decidable (machine.enabled s e ∧ s.oneLink e))

theorem split_send {cids : List ℕ} (h : Split s.sent) (hone : cids.length = 1) :
    Split (s.send cids).sent := by
  intro cs hcs
  rcases List.mem_append.mp hcs with hcs | hcs
  · exact h cs hcs
  · rw [List.mem_singleton.mp hcs]
    exact List.length_eq_one_iff.mp hone

theorem sent_of_not_send (e : NetEvent) (he : ∀ cids, e ≠ .send cids) :
    (s.next e).sent = s.sent := by
  cases e with
  | send cids => exact absurd rfl (he cids)
  | lose cid k =>
    show (s.lose cid k).sent = _
    unfold Net.lose
    split <;> rfl
  | arrive cid =>
    show (s.arrive cid).sent = _
    unfold Net.arrive
    split <;> rfl
  | _ => rfl

theorem split_step (h : Split s.sent) (e : NetEvent) (hone : s.oneLink e) :
    Split (s.next e).sent := by
  cases e with
  | send cids => exact split_send h hone
  | _ => rw [sent_of_not_send _ (by simp)]; exact h

theorem arrive_eq (hch : s.channel cid = (m, gmaHeader) :: rest) :
    (s.arrive cid).rx = s.rx.receive m gmaHeader := by
  unfold Net.arrive
  rw [hch]

theorem Follows.head {W : List (Delivery ℕ) → (ℕ → List (RxQueueItem ℕ)) → Prop}
    (h : Follows W s) (hch : s.channel cid = (m, gmaHeader) :: rest) :
    gmaHeader.sequenceNumber = m % 16777216 ∧ gmaHeader.connectionId = cid ∧
      OnLink s.sent cid m ∧ s.seen cid ≤ m := by
  obtain ⟨hhead, hon, hseen, -⟩ := h.wired.flight cid (m, gmaHeader)
    (by rw [hch]; exact List.mem_cons_self)
  exact ⟨congrArg GmaHeader.sequenceNumber hhead, congrArg GmaHeader.connectionId hhead, hon, hseen⟩

theorem Follows.of_receive {W : List (Delivery ℕ) → (ℕ → List (RxQueueItem ℕ)) → Prop}
    (h : Follows W s) (hch : s.channel cid = (m, gmaHeader) :: rest)
    (ht : Tracks ((s.view.arrived cid m).record cid gmaHeader) (s.rx.receive m gmaHeader) ∧
      W (s.rx.receive m gmaHeader).forwarded (s.rx.receive m gmaHeader).queue) :
    Follows W (s.next (.arrive cid)) ∧ SameSetup s (s.next (.arrive cid)) := by
  have hrx := arrive_eq hch
  refine ⟨⟨h.wired.arrive hch, tracks_view_arrive h.wired hch ht.1, ?_⟩, ?_⟩
  · show W (s.arrive cid).rx.forwarded (s.arrive cid).rx.queue
    rw [hrx]
    exact ht.2
  · show (s.arrive cid).rx.cids = _ ∧ (s.arrive cid).rx.useLsnReordering = _
    rw [hrx]
    exact ⟨ht.1.cids, ht.1.useLsn⟩

def Registered (s : Net) : Prop := ∀ cs ∈ s.sent, ∀ cid ∈ cs, cid ∈ s.rx.cids

theorem Registered.mem (h : Registered s) {cid j : ℕ} (hj : OnLink s.sent cid j) :
    cid ∈ s.rx.cids := by
  obtain ⟨cs, hcs, hc⟩ := hj
  exact h cs (List.mem_of_getElem? hcs) cid hc

theorem Registered.step (h : Registered s) (e : NetEvent) (he : s.enabled e)
    (hsame : SameSetup s (s.next e)) : Registered (s.next e) := by
  intro cs hcs cid hc
  rw [hsame.1]
  by_cases hsend : ∃ cids, e = .send cids
  · obtain ⟨cids, rfl⟩ := hsend
    rcases List.mem_append.mp (show cs ∈ s.sent ++ [cids] from hcs) with hcs | hcs
    · exact h cs hcs cid hc
    · rw [List.mem_singleton.mp hcs] at hc
      exact he.2.2 cid hc
  · rw [sent_of_not_send e (fun cids h' => hsend ⟨cids, h'⟩)] at hcs
    exact h cs hcs cid hc

structure SplitFollows (W : List (Delivery ℕ) → (ℕ → List (RxQueueItem ℕ)) → Prop) (s : Net) :
    Prop where
  follows : Follows W s
  split : Split s.sent
  registered : Registered s

theorem SplitFollows.step {W : List (Delivery ℕ) → (ℕ → List (RxQueueItem ℕ)) → Prop}
    (h : SplitFollows W s) {e : NetEvent} (he : s.enabled e) (hone : s.oneLink e)
    (hf : Follows W (s.next e) ∧ SameSetup s (s.next e)) : SplitFollows W (s.next e) :=
  ⟨hf.1, split_step h.split e hone, h.registered.step e he hf.2⟩

theorem SplitFollows.new {W : List (Delivery ℕ) → (ℕ → List (RxQueueItem ℕ)) → Prop}
    (h : SplitFollows W s) (hon : OnLink s.sent cid m) (hseen : s.seen cid ≤ m) :
    ∀ c, ∀ a ∈ s.rx.queue c, a.packet ≠ m := by
  intro c a ha ham
  have hcame : (c, a.packet) ∈ s.received := (h.follows.tracks.queues.items c a ha).2.2.2
  rw [ham] at hcame
  obtain ⟨hc, hlt⟩ := h.follows.wired.received c m hcame
  have h1 := h.split.onLink hc
  rw [h.split.onLink hon] at h1
  obtain rfl : cid = c := by simpa using h1
  omega

theorem SplitFollows.ahead_step (h : SplitFollows Ahead s) (e : NetEvent) (he : s.enabled e)
    (hone : s.oneLink e) (hlen : s.sent.length ≤ maxGmaSn) (hwin : s.inWindow e) :
    SplitFollows Ahead (s.next e) := by
  have keeps := Ahead.keeps s.view
  by_cases harr : ∃ cid, e = .arrive cid
  · obtain ⟨cid, rfl⟩ := harr
    obtain ⟨⟨m, gmaHeader⟩, rest, hch⟩ := List.exists_cons_of_ne_nil (he : s.channel cid ≠ [])
    obtain ⟨hsn, hcid, hon, hseen⟩ := h.follows.head hch
    obtain ⟨hw1, hw2, hw3⟩ := hwin (m, gmaHeader) (by rw [hch]; rfl)
    have ht := h.follows.tracks
    have hplain : gmaHeader.sequenceNumber ≠ maxGmaSn := by
      have := hon.lt
      rw [hsn]
      unfold maxGmaSn at hlen ⊢
      omega
    exact h.step he hone (h.follows.of_receive hch (h.follows.cond.arrive ht
      (h.registered.mem hon) hsn hcid hseen hw1 hw2 (fun _ => hplain) (h.new hon hseen)
      (gap_of_lsnTest h.follows.wired ht h.split hch hw3)
      (fun c => not_lost_of_queued h.follows.wired ht c cid)))
  · have hne : ∀ cid, e ≠ .arrive cid := fun cid h' => harr ⟨cid, h'⟩
    exact h.step he hone (h.follows.step e he hne (Ahead.keeps s.view))

theorem SplitFollows.start {W : List (Delivery ℕ) → (ℕ → List (RxQueueItem ℕ)) → Prop}
    {cids : List ℕ} (h255 : noCid ∉ cids) (linkUp : ℕ → Bool) (params : List MeasureParam)
    (useLsn : Bool) (hW : W [] fun _ => []) :
    SplitFollows W (Net.start cids linkUp params useLsn) where
  follows := ⟨Wired.start cids linkUp params useLsn, Tracks.start h255 linkUp params useLsn, hW⟩
  split := nofun
  registered := nofun

theorem sent_length_step (h : s.sent.length ≤ maxGmaSn) (e : NetEvent) (hmax : s.belowMaxSn e) :
    (s.next e).sent.length ≤ maxGmaSn := by
  by_cases hsend : ∃ cids, e = .send cids
  · obtain ⟨cids, rfl⟩ := hsend
    show (s.sent ++ [cids]).length ≤ maxGmaSn
    rw [List.length_append]
    exact hmax
  · rw [sent_of_not_send e (fun cids h' => hsend ⟨cids, h'⟩)]
    exact h

theorem split_delivery_in_order {cids : List ℕ} (h255 : noCid ∉ cids) (linkUp : ℕ → Bool)
    (params : List MeasureParam) {es : List NetEvent}
    (h : ((splitMode.restrict belowMaxSn).restrict inWindow).Reaches
      (start cids linkUp params true) es s) :
    (s.rx.forwarded.map fun d => d.gmaHeader.sequenceNumber).Pairwise (· < ·) ∧
      (s.rx.forwarded.map Delivery.packet).Nodup := by
  have hinv : SplitFollows Ahead s ∧ s.sent.length ≤ maxGmaSn := by
    refine Machine.Reaches.invariant (P := fun s => SplitFollows Ahead s ∧
      s.sent.length ≤ maxGmaSn) ?_ ?_ h
    · refine ⟨SplitFollows.start h255 linkUp params true ?_, Nat.zero_le _⟩
      exact Ahead.nil
    · rintro s e ⟨hs, hlen⟩ ⟨⟨⟨he, hone⟩, hmax⟩, hwin⟩
      exact ⟨hs.ahead_step e he hone hlen hwin, sent_length_step hlen e hmax⟩
  obtain ⟨hs, hlen⟩ := hinv
  have hinc := hs.follows.cond.increasing
  have hsn : ∀ d ∈ s.rx.forwarded, d.gmaHeader.sequenceNumber = d.packet := by
    intro d hd
    obtain ⟨h1, h2⟩ := hs.follows.tracks.handed d hd
    have := (hs.follows.wired.received _ _ h2).1.lt
    rw [h1]
    unfold maxGmaSn at hlen
    omega
  refine ⟨?_, hinc.imp (fun h => Nat.ne_of_lt h)⟩
  rw [List.map_congr_left hsn]
  exact hinc

/-! ### The LSN test -/

/-- The indices compared all lie in `M`, and no two of `M` are half the space apart. -/
structure Confined (M : ℕ → Prop) (log : List (Delivery ℕ))
    (queue : ℕ → List (RxQueueItem ℕ)) : Prop where
  close : ∀ x y, M x → M y → x < y + 8388608
  next : M (nextIndex log)
  items : ∀ c, ∀ a ∈ queue c, M a.packet ∧ M (a.packet + 1)

theorem Confined.near {M : ℕ → Prop} {log : List (Delivery ℕ)}
    {queue : ℕ → List (RxQueueItem ℕ)} (h : Confined M log queue) :
    Tracks.Near (nextIndex log) queue :=
  fun c a ha => ⟨h.close _ _ (h.items c a ha).1 h.next, h.close _ _ h.next (h.items c a ha).1⟩

theorem Confined.keeps (v : View) (M : ℕ → Prop) :
    Keeps fun r => Tracks v r ∧ Confined M r.forwarded r.queue := by
  refine tracks_keeps v (Confined M) (fun _ _ h => h.near) ?_ ?_
  · intro r item rest c0 path _ h hq _ hp
    refine ⟨h.close, ?_, fun c a ha => h.items c a (Ahead.mem_of_mem_update hq ha)⟩
    rw [nextIndex_append, if_neg hp]
    exact (h.items _ item (by rw [hq]; exact List.mem_cons_self)).2
  · intro r item rest cid _ h hq _
    refine ⟨h.close, ?_, fun c a ha => h.items c a (Ahead.mem_of_mem_update hq ha)⟩
    rw [nextIndex_append, if_pos rfl]
    exact h.next

theorem queued_of_queue (ht : Tracks s.view s.rx) {c : ℕ} {a : RxQueueItem ℕ}
    (ha : a ∈ s.rx.queue c) : a ∈ s.rx.queued := by
  by_cases hc : c ∈ s.rx.cids
  · exact List.mem_flatMap.mpr ⟨c, hc, ha⟩
  · rw [ht.unregistered c hc] at ha
    cases ha

theorem confined_of_comparable (ht : Tracks s.view s.rx) {e : NetEvent} (h : s.comparable e) :
    Confined (· ∈ s.compared e) s.rx.forwarded s.rx.queue where
  close x y hx hy := h x hx y hy
  next := by simp [compared, Receiver.nextIndex]
  items c a ha := by
    have hq := queued_of_queue ht ha
    have hmem : ∀ x ∈ [a.packet, a.packet + 1], x ∈ s.compared e := by
      intro x hx
      exact List.mem_append_left _ (List.mem_cons_of_mem _ (List.mem_flatMap.mpr ⟨a, hq, hx⟩))
    exact ⟨hmem _ (by simp), hmem _ (by simp)⟩

theorem SplitFollows.confined_step (h : SplitFollows (fun _ _ => True) s) (e : NetEvent)
    (he : s.enabled e) (hone : s.oneLink e) (hcomp : s.comparable e) :
    SplitFollows (fun _ _ => True) (s.next e) := by
  have ht := h.follows.tracks
  have hM := confined_of_comparable ht hcomp
  have hF : Follows (Confined (· ∈ s.compared e)) s := ⟨h.follows.wired, ht, hM⟩
  have hfollows : Follows (Confined (· ∈ s.compared e)) (s.next e) ∧
      SameSetup s (s.next e) := by
    by_cases harr : ∃ cid, e = .arrive cid
    · obtain ⟨cid, rfl⟩ := harr
      obtain ⟨⟨m, gmaHeader⟩, rest, hch⟩ := List.exists_cons_of_ne_nil (he : s.channel cid ≠ [])
      obtain ⟨hsn, hcid, hon, hseen⟩ := hF.head hch
      have hmem : ∀ x ∈ [m, m + 1, s.seen cid], x ∈ s.compared (.arrive cid) := by
        intro x hx
        refine List.mem_append_right _ ?_
        simp only [hch]
        exact hx
      have hm := hmem m (by simp)
      have hm1 := hmem (m + 1) (by simp)
      have hms := hmem (s.seen cid) (by simp)
      refine hF.of_receive hch (ht.arrive (Confined.keeps _ _) hM (h.registered.mem hon) hsn hcid
        hseen (hcomp _ hm _ hM.next) (hcomp _ hM.next _ hm)
        (gap_of_lsnTest hF.wired ht h.split hch (hcomp _ hm1 _ hms)) ?_ ?_ ?_)
      · intro _
        refine ⟨hM.close, ?_, hM.items⟩
        rw [nextIndex_append, if_neg (by simp)]
        exact hm1
      · intro _ _ _
        refine ⟨hM.close, ?_, hM.items⟩
        rw [nextIndex_append, if_neg (by simp)]
        exact hm1
      · intro inOrder _
        refine ⟨hM.close, hM.next, ?_⟩
        intro c a ha
        by_cases hc : c = cid
        · subst hc
          rw [Function.update_self] at ha
          rcases List.mem_append.mp ha with ha | ha
          · exact hM.items c a ha
          · rw [List.mem_singleton.mp ha]
            exact ⟨hm, hm1⟩
        · rw [Function.update_of_ne hc] at ha
          exact hM.items c a ha
    · exact hF.step e he (fun cid h' => harr ⟨cid, h'⟩) (Confined.keeps s.view _)
  exact h.step he hone ⟨⟨hfollows.1.wired, hfollows.1.tracks, trivial⟩, hfollows.2⟩

/-- Packet 0 is lost on the second link, and its successor there is handed on past the gap. -/
def gapRun : List NetEvent :=
  [.send [1], .send [1], .send [0], .lose 1 0, .arrive 1, .arrive 0]

theorem split_delivery_in_order_gap :
    let s := splitMode.exec (start [0, 1, 2] (fun _ => true) [] true) gapRun
    (s.rx.forwarded.map fun d => d.gmaHeader.sequenceNumber).Pairwise (· < ·) ∧
      (s.rx.forwarded.map Delivery.packet).Nodup :=
  split_delivery_in_order (by decide) (fun _ => true) []
    (Machine.Permits.reaches (M := (splitMode.restrict belowMaxSn).restrict inWindow) (by decide))

def silentLinks : Net := start [0, 1, 2] (fun _ => true) [] true

/-- The first link has carried nothing yet, the third one packet 4, the second all others. -/
structure Silent (n : ℕ) (s : Net) : Prop where
  rx : s.rx = silentLinks.rx
  length : s.sent.length = 5 + n
  txSn : s.gmaTxSn = (5 + n) % 16777216
  first : s.gmaTxLocalSn 0 = 0 ∧ s.channel 0 = []
  second : ∃ rest, s.channel 1 = (0, ⟨0, 0, 1⟩) :: (1, ⟨1, 1, 1⟩) :: (2, ⟨2, 2, 1⟩) :: rest
  third : s.channel 2 = [(4, ⟨4, 0, 2⟩)]
  three : s.sent[3]? = some [1]

theorem Silent.send {n : ℕ} (h : Silent n s) : Silent (n + 1) (s.send [1]) where
  rx := h.rx
  length := by
    show (s.sent ++ [[1]]).length = _
    rw [List.length_append, h.length]
    rfl
  txSn := by
    show nextSn s.gmaTxSn = _
    rw [nextSn_eq, h.txSn, Nat.mod_add_mod]
    rfl
  first := by simpa [Net.send, sendByCid] using h.first
  second := by
    obtain ⟨rest, hr⟩ := h.second
    exact ⟨rest ++ [(s.sent.length, ⟨s.gmaTxSn, s.gmaTxLocalSn 1, 1⟩)],
      by simp [Net.send, sendByCid, hr]⟩
  third := by simpa [Net.send, sendByCid] using h.third
  three := by
    show (s.sent ++ [[1]])[3]? = _
    rw [List.getElem?_append_left (by rw [h.length]; omega)]
    exact h.three

def silentStart : List NetEvent := [.send [1], .send [1], .send [1], .send [1], .send [2]]

theorem silent_reaches (n : ℕ) (hn : n < 16777200) : ∃ s, Silent n s ∧
    (splitMode.restrict belowMaxSn).Reaches silentLinks
      (silentStart ++ List.replicate n (.send [1])) s := by
  induction n with
  | zero =>
    refine ⟨splitMode.exec silentLinks silentStart, ?_, ?_⟩
    · exact ⟨rfl, rfl, rfl, ⟨rfl, rfl⟩, ⟨_, rfl⟩, rfl, rfl⟩
    · rw [List.replicate_zero, List.append_nil]
      exact Machine.Permits.reaches (M := splitMode.restrict belowMaxSn) (by decide)
  | succ n ih =>
    obtain ⟨s, hs, h⟩ := ih (by omega)
    refine ⟨s.send [1], hs.send, ?_⟩
    rw [List.replicate_succ', ← List.append_assoc]
    refine h.snoc _ ⟨⟨⟨by simp, by simp, ?_⟩, rfl⟩, ?_⟩
    · intro cid hc
      rw [hs.rx, List.mem_singleton.mp hc]
      decide
    · show s.sent.length < maxGmaSn
      rw [hs.length]
      unfold maxGmaSn
      omega

/-- Two packets on the silent link, of which the second follows the first in LSN and SN. -/
def silentEnd : List NetEvent :=
  [.send [0], .send [0], .arrive 0, .arrive 2, .arrive 1, .arrive 1, .arrive 1, .arrive 0]

def silentRx (n : ℕ) : Receiver ℕ :=
  (((((silentLinks.rx.receive n ⟨n, 0, 0⟩).receive 4 ⟨4, 0, 2⟩).receive 0
    ⟨0, 0, 1⟩).receive 1 ⟨1, 1, 1⟩).receive 2 ⟨2, 2, 1⟩).receive (n + 1) ⟨n + 1, 1, 0⟩

def silentRun : List NetEvent :=
  silentStart ++ List.replicate 8388604 (.send [1]) ++ silentEnd

theorem silent_end {n : ℕ} (hn : n < 16777200) {s : Net} (h : Silent n s) :
    (splitMode.exec s silentEnd).rx = silentRx (5 + n) ∧
      (splitMode.exec s silentEnd).sent[3]? = some [1] ∧
      (splitMode.restrict belowMaxSn).Permits s silentEnd := by
  obtain ⟨rest, hsecond⟩ := h.second
  obtain ⟨hrx, hlen, htx, ⟨hl, hfirst⟩, -, hthird, hthree⟩ := h
  have htx1 : nextSn s.gmaTxSn = 5 + n + 1 := by
    rw [nextSn_eq, htx]
    omega
  rw [Nat.mod_eq_of_lt (by omega)] at htx
  obtain ⟨rx, txSn, txLocalSn, channel, sent, received, lost, seen⟩ := s
  dsimp only at hrx hlen htx htx1 hl hfirst hsecond hthird hthree
  have hget : (sent ++ ([[0], [0]] : List (List ℕ)))[3]? = some [1] := by
    rw [List.getElem?_append_left (by omega)]
    exact hthree
  refine ⟨?_, ?_, ?_⟩
  · simp [silentEnd, Machine.exec, splitMode, machine, Machine.restrict, next, Net.send, sendByCid,
      Net.arrive, hrx, hlen, htx1, hl, hfirst, hsecond, hthird, maxGmaLsn, silentRx]
    rw [htx]
  · simp [silentEnd, Machine.exec, splitMode, machine, Machine.restrict, next, Net.send, sendByCid,
      Net.arrive, hfirst, hsecond, hthird, hget]
  · simp [silentEnd, Machine.Permits, splitMode, machine, Machine.restrict, next, Net.send,
      sendByCid, Net.arrive, enabled, oneLink, belowMaxSn, hrx, hlen, hfirst, hsecond, hthird,
      maxGmaSn, silentLinks, start]
    omega

theorem silent_run : ∃ s, (splitMode.restrict belowMaxSn).Reaches silentLinks silentRun s ∧
    s.rx = silentRx 8388609 ∧ s.sent[3]? = some [1] := by
  obtain ⟨s, hs, h⟩ := silent_reaches 8388604 (by norm_num)
  obtain ⟨hrx, hthree, hp⟩ := silent_end (by norm_num) hs
  exact ⟨_, h.append hp.reaches, hrx, hthree⟩

theorem silentRx_forwarded : (silentRx 8388609).forwarded =
    [⟨0, ⟨0, 0, 1⟩, .expected, 0⟩, ⟨1, ⟨1, 1, 1⟩, .expected, 1⟩, ⟨2, ⟨2, 2, 1⟩, .expected, 2⟩,
      ⟨8388610, ⟨8388610, 1, 0⟩, .lsnTest, 3⟩, ⟨4, ⟨4, 0, 2⟩, .late, 8388611⟩] := by
  decide

theorem silent_link_breaks_order :
    ∃ s, (splitMode.restrict belowMaxSn).Reaches (start [0, 1, 2] (fun _ => true) [] true)
      silentRun s ∧
        ¬ (s.rx.forwarded.map fun d => d.gmaHeader.sequenceNumber).Pairwise (· < ·) := by
  obtain ⟨s, h, hrx, _⟩ := silent_run
  refine ⟨s, h, ?_⟩
  rw [hrx, silentRx_forwarded]
  decide

end Net
end NetGymSim.Gma

/-!
## Duplicate mode

The same SN goes out on several links and the LSN test is off. A copy that arrives
after another was handed on is dropped as it comes in. A copy that arrives while
another waits is queued as well, and the branches for an SN below the expected one
hand it on although their comment says it is discarded. Without such an arrival
every SN is handed on at most once and never late.
-/

namespace NetGymSim.Gma
open NetGymSim.Lib
namespace Net

structure DuplicatesDropped (s : Net) : Prop where
  once : (s.rx.forwarded.map Delivery.packet).Nodup
  late : ∀ d ∈ s.rx.forwarded, 0 ≤ snDiff d.gmaHeader.sequenceNumber d.expectedSn

/-- The arriving copy is the only one waiting, less than 2^23 from the expected SN, and its SN
is not the "none yet" of the walks unless it is expected or late. -/
def onlyCopy (s : Net) : NetEvent → Prop
  | .arrive cid => ∀ p ∈ (s.channel cid).head?,
      p.1 < s.rx.nextIndex + 8388608 ∧ s.rx.nextIndex < p.1 + 8388608 ∧
        (∀ item ∈ s.rx.queued, item.packet ≠ p.1) ∧
        (s.rx.nextIndex < p.1 → p.2.sequenceNumber ≠ maxGmaSn)
  | _ => True

instance (s : Net) : (e : NetEvent) → Decidable (s.onlyCopy e)
  | .arrive cid => inferInstanceAs (Decidable (∀ p ∈ (s.channel cid).head?,
      p.1 < s.rx.nextIndex + 8388608 ∧ s.rx.nextIndex < p.1 + 8388608 ∧
        (∀ item ∈ s.rx.queued, item.packet ≠ p.1) ∧
        (s.rx.nextIndex < p.1 → p.2.sequenceNumber ≠ maxGmaSn)))
  | .send _ | .lose _ _ | .reorderingTimeout | .linkState _ _ | .wait _ | .measure _ =>
      inferInstanceAs (Decidable True)

structure DuplicateFollows (s : Net) : Prop where
  follows : Follows Ahead s
  registered : Registered s
  lsnOff : s.rx.useLsnReordering = false

theorem DuplicateFollows.step {s : Net} (h : DuplicateFollows s) (e : NetEvent) (he : s.enabled e)
    (hone : s.onlyCopy e) : DuplicateFollows (s.next e) := by
  have hf : Follows Ahead (s.next e) ∧ SameSetup s (s.next e) := by
    by_cases harr : ∃ cid, e = .arrive cid
    · obtain ⟨cid, rfl⟩ := harr
      obtain ⟨⟨m, gmaHeader⟩, rest, hch⟩ := List.exists_cons_of_ne_nil (he : s.channel cid ≠ [])
      obtain ⟨hsn, hcid, hon, hseen⟩ := h.follows.head hch
      obtain ⟨hw1, hw2, hnew, hplain⟩ := hone (m, gmaHeader) (by rw [hch]; rfl)
      have ht := h.follows.tracks
      have hoff : ¬ s.rx.lsnTest gmaHeader cid := by
        simp [Receiver.lsnTest, h.lsnOff]
      exact h.follows.of_receive hch (h.follows.cond.arrive ht (h.registered.mem hon) hsn hcid
        hseen hw1 hw2 hplain (fun c a ha => hnew a (queued_of_queue ht ha))
        (fun hl => absurd hl hoff) (fun c => not_lost_of_queued h.follows.wired ht c cid))
    · exact h.follows.step e he (fun cid h' => harr ⟨cid, h'⟩) (Ahead.keeps s.view)
  exact ⟨hf.1, h.registered.step e he hf.2, hf.2.2.trans h.lsnOff⟩

theorem duplicates_dropped {cids : List ℕ} (h255 : noCid ∉ cids) (linkUp : ℕ → Bool)
    (params : List MeasureParam) {es : List NetEvent} {s : Net}
    (h : (machine.restrict onlyCopy).Reaches (start cids linkUp params false) es s) :
    s.DuplicatesDropped := by
  have hinv : DuplicateFollows s := by
    refine Machine.Reaches.invariant (P := DuplicateFollows) ?_ ?_ h
    · have hs := SplitFollows.start h255 linkUp params false Ahead.nil
      exact ⟨hs.follows, hs.registered, rfl⟩
    · rintro s e hs ⟨he, hone⟩
      exact hs.step e he hone
  exact ⟨hinv.follows.cond.increasing.imp (fun h => Nat.ne_of_lt h), hinv.follows.cond.punctual⟩

/-- A copy that comes after the other one was handed on. -/
theorem duplicates_dropped_second_copy :
    ((machine.restrict onlyCopy).exec (start [0, 1] (fun _ => true) [] false)
      [.send [0, 1], .send [0, 1], .arrive 0, .arrive 1, .arrive 0, .arrive 1]).DuplicatesDropped :=
  duplicates_dropped (by decide) (fun _ => true) [] (Machine.Permits.reaches (by decide))

/-- Packet 0 is lost on both links; both copies of packet 1 wait and both are handed on. -/
theorem both_copies_handed_on :
    ∃ s, machine.Reaches (start [0, 1] (fun _ => true) [] false)
      [.send [0, 1], .send [0, 1], .lose 0 0, .lose 1 0, .arrive 0, .arrive 1] s ∧
      s.rx.forwarded.map (fun d => (d.gmaHeader.sequenceNumber, d.path)) =
        [(1, .minSn), (1, .late)] ∧ ¬ s.DuplicatesDropped := by
  refine ⟨_, Machine.Permits.reaches (by decide), by decide, ?_⟩
  intro h
  exact absurd h.once (by decide)

end Net
end NetGymSim.Gma

import NetGymSim.Gma.InOrder

/-!
# Sender, lossy links and receiver

The sender numbers its packets consecutively and counts them again on each link. A
link is a queue of packets in flight from which any packet may be lost. `sent`,
`received`, `lost` and `seen` are kept for the proofs only: the links of each index,
what became of it, and the index after the last arrival on each link. `Wired` ties
the counters of both ends to that history.
-/

namespace NetGymSim.Gma
open NetGymSim.Lib

structure Net where
  rx : Receiver ℕ
  gmaTxSn : ℕ := 0
  gmaTxLocalSn : ℕ → ℕ := fun _ => 0
  channel : ℕ → List (ℕ × GmaHeader) := fun _ => []
  sent : List (List ℕ) := []
  received : List (ℕ × ℕ) := []
  lost : List (ℕ × ℕ) := []
  seen : ℕ → ℕ := fun _ => 0

inductive NetEvent
  | send (cids : List ℕ)
  | lose (cid k : ℕ)
  | arrive (cid : ℕ)
  | reorderingTimeout
  | linkState (cid : ℕ) (up : Bool)
  | wait (ns : ℕ)
  | measure (params : List MeasureParam)

namespace Net

def sendByCid (s : Net) (cid : ℕ) : Net :=
  { s with
    channel := Function.update s.channel cid
      (s.channel cid ++ [(s.sent.length, ⟨s.gmaTxSn, s.gmaTxLocalSn cid, cid⟩)])
    gmaTxLocalSn := Function.update s.gmaTxLocalSn cid ((s.gmaTxLocalSn cid + 1) &&& maxGmaLsn) }

def send (s : Net) (cids : List ℕ) : Net :=
  { cids.foldl sendByCid s with
    gmaTxSn := nextSn s.gmaTxSn
    sent := s.sent ++ [cids] }

def arrive (s : Net) (cid : ℕ) : Net :=
  match s.channel cid with
  | [] => s
  | (m, gmaHeader) :: rest =>
      { s with
        rx := s.rx.receive m gmaHeader
        channel := Function.update s.channel cid rest
        received := s.received ++ [(cid, m)]
        seen := Function.update s.seen cid (m + 1) }

def lose (s : Net) (cid k : ℕ) : Net :=
  match (s.channel cid)[k]? with
  | none => s
  | some p =>
      { s with
        channel := Function.update s.channel cid ((s.channel cid).eraseIdx k)
        lost := s.lost ++ [(cid, p.1)] }

def next (s : Net) : NetEvent → Net
  | .send cids => s.send cids
  | .lose cid k => s.lose cid k
  | .arrive cid => s.arrive cid
  | .reorderingTimeout => { s with rx := s.rx.reorderingTimeoutFires }
  | .linkState cid up => { s with rx := { s.rx with linkUp := Function.update s.rx.linkUp cid up } }
  | .wait ns => { s with rx := { s.rx with now := s.rx.now + ns } }
  | .measure params => { s with rx := { s.rx with measureParams := params } }

def enabled (s : Net) : NetEvent → Prop
  | .send cids => cids ≠ [] ∧ cids.Nodup ∧ ∀ cid ∈ cids, cid ∈ s.rx.cids
  | .lose cid k => k < (s.channel cid).length
  | .arrive cid => s.channel cid ≠ []
  | .reorderingTimeout => s.rx.reorderingTimeoutEvent.isSome
  | .linkState _ _ | .wait _ | .measure _ => True

instance (s : Net) : (e : NetEvent) → Decidable (s.enabled e)
  | .send cids =>
      inferInstanceAs (Decidable (cids ≠ [] ∧ cids.Nodup ∧ ∀ cid ∈ cids, cid ∈ s.rx.cids))
  | .lose cid k => inferInstanceAs (Decidable (k < (s.channel cid).length))
  | .arrive cid => inferInstanceAs (Decidable (s.channel cid ≠ []))
  | .reorderingTimeout => inferInstanceAs (Decidable (s.rx.reorderingTimeoutEvent.isSome = true))
  | .linkState _ _ | .wait _ | .measure _ => inferInstanceAs (Decidable True)

def machine : Machine Net NetEvent := ⟨enabled, next⟩

instance (s : Net) (e : NetEvent) : Decidable (machine.enabled s e) :=
  inferInstanceAs (Decidable (s.enabled e))

def start (cids : List ℕ) (linkUp : ℕ → Bool) (params : List MeasureParam) (useLsn : Bool) : Net :=
  { rx := {
      cids := cids
      linkUp := linkUp
      measureParams := params
      enableReordering := true
      useLsnReordering := useLsn } }

def OnLink (sent : List (List ℕ)) (cid j : ℕ) : Prop := ∃ cids, sent[j]? = some cids ∧ cid ∈ cids

def rank (sent : List (List ℕ)) (cid n : ℕ) : ℕ := (sent.take n).countP (cid ∈ ·)

def headerOf (sent : List (List ℕ)) (cid j : ℕ) : GmaHeader :=
  ⟨j % 16777216, rank sent cid j % 256, cid⟩

variable {sent : List (List ℕ)} {cid : ℕ}

theorem onLink_append {cids : List ℕ} {j : ℕ} :
    OnLink (sent ++ [cids]) cid j ↔ OnLink sent cid j ∨ (j = sent.length ∧ cid ∈ cids) := by
  unfold OnLink
  rcases Nat.lt_trichotomy j sent.length with h | h | h
  · rw [List.getElem?_append_left h]
    exact ⟨.inl, fun h' => h'.resolve_right fun e => by omega⟩
  · subst h
    simp
  · rw [List.getElem?_eq_none (by simp; omega), List.getElem?_eq_none (by omega)]
    simp only [reduceCtorEq, false_and, exists_false, false_or]
    exact ⟨False.elim, fun e => by omega⟩

theorem OnLink.lt {j : ℕ} (h : OnLink sent cid j) : j < sent.length := by
  obtain ⟨cs, hj, _⟩ := h
  exact (List.getElem?_eq_some_iff.mp hj).1

theorem rank_append (cids : List ℕ) {n : ℕ} (hn : n ≤ sent.length) :
    rank (sent ++ [cids]) cid n = rank sent cid n := by
  rw [rank, rank, List.take_append_of_le_length hn]

theorem rank_succ_of_onLink {j : ℕ} (h : OnLink sent cid j) :
    rank sent cid (j + 1) = rank sent cid j + 1 := by
  obtain ⟨cs, hj, hc⟩ := h
  rw [rank, rank, List.take_add_one, hj, List.countP_append]
  simp [hc]

theorem rank_succ_le (j : ℕ) : rank sent cid j ≤ rank sent cid (j + 1) ∧
    rank sent cid (j + 1) ≤ rank sent cid j + 1 := by
  rw [rank, rank, List.take_add_one, List.countP_append]
  cases sent[j]? with
  | none => simp
  | some cs => by_cases hc : cid ∈ cs <;> simp [hc]

theorem rank_le_add (a n : ℕ) : rank sent cid a ≤ rank sent cid (a + n) ∧
    rank sent cid (a + n) ≤ rank sent cid a + n := by
  induction n with
  | zero => simp
  | succ n ih =>
    have hs : rank sent cid (a + n) ≤ rank sent cid (a + n + 1) ∧
        rank sent cid (a + n + 1) ≤ rank sent cid (a + n) + 1 := rank_succ_le (a + n)
    rw [← Nat.add_assoc]
    omega

theorem onLink_of_rank {a n : ℕ} (h : rank sent cid (a + n) = rank sent cid a + n)
    (hl : a + n ≤ sent.length) : ∀ j, a ≤ j → j < a + n → OnLink sent cid j := by
  induction n with
  | zero => intro j h1 h2; omega
  | succ n ih =>
    have h1 : rank sent cid a ≤ rank sent cid (a + n) ∧
        rank sent cid (a + n) ≤ rank sent cid a + n := rank_le_add a n
    have h2 : rank sent cid (a + n) ≤ rank sent cid (a + n + 1) ∧
        rank sent cid (a + n + 1) ≤ rank sent cid (a + n) + 1 := rank_succ_le (a + n)
    rw [← Nat.add_assoc] at h hl
    intro j hj hlt
    by_cases he : j = a + n
    · subst he
      by_contra hno
      have hlt : a + n < sent.length := by omega
      have hnot : cid ∉ sent[a + n] := fun hc => hno ⟨_, List.getElem?_eq_getElem hlt, hc⟩
      have : rank sent cid (a + n + 1) = rank sent cid (a + n) := by
        rw [rank, rank, List.take_add_one, List.getElem?_eq_getElem hlt, List.countP_append]
        simp [hnot]
      omega
    · exact ih (by omega) (by omega) j hj (by omega)

theorem sendByCid_fold (cids : List ℕ) (hn : cids.Nodup) (s : Net) :
    cids.foldl sendByCid s =
      { s with
        channel := fun c => if c ∈ cids then
          s.channel c ++ [(s.sent.length, ⟨s.gmaTxSn, s.gmaTxLocalSn c, c⟩)] else s.channel c
        gmaTxLocalSn := fun c =>
          if c ∈ cids then (s.gmaTxLocalSn c + 1) &&& maxGmaLsn else s.gmaTxLocalSn c } := by
  induction cids generalizing s with
  | nil => simp
  | cons d cids ih =>
    obtain ⟨hd, hn⟩ := List.nodup_cons.mp hn
    rw [List.foldl_cons, ih hn]
    have hch : (fun c => if c ∈ cids then (s.sendByCid d).channel c ++
        [((s.sendByCid d).sent.length,
          (⟨(s.sendByCid d).gmaTxSn, (s.sendByCid d).gmaTxLocalSn c, c⟩ : GmaHeader))]
        else (s.sendByCid d).channel c) =
        fun c => if c ∈ d :: cids then
          s.channel c ++ [(s.sent.length, ⟨s.gmaTxSn, s.gmaTxLocalSn c, c⟩)] else s.channel c := by
      funext c
      by_cases hc : c = d
      · subst hc; simp [hd, sendByCid]
      · simp [hc, sendByCid]
    have hl : (fun c => if c ∈ cids then ((s.sendByCid d).gmaTxLocalSn c + 1) &&& maxGmaLsn
        else (s.sendByCid d).gmaTxLocalSn c) =
        fun c => if c ∈ d :: cids then (s.gmaTxLocalSn c + 1) &&& maxGmaLsn
          else s.gmaTxLocalSn c := by
      funext c
      by_cases hc : c = d
      · subst hc; simp [hd, sendByCid]
      · simp [hc, sendByCid]
    rw [hch, hl]
    rfl

structure Wired (s : Net) : Prop where
  txSn : s.gmaTxSn = s.sent.length % 16777216
  txLocalSn : ∀ c, s.gmaTxLocalSn c = rank s.sent c s.sent.length % 256
  seenLe : ∀ c, s.seen c ≤ s.sent.length
  flight : ∀ c, ∀ p ∈ s.channel c, p.2 = headerOf s.sent c p.1 ∧ OnLink s.sent c p.1 ∧
    s.seen c ≤ p.1 ∧ (c, p.1) ∉ s.lost
  order : ∀ c, ((s.channel c).map Prod.fst).Pairwise (· < ·)
  account : ∀ c j, OnLink s.sent c j → (c, j) ∈ s.lost ∨ j < s.seen c ∨
    j ∈ (s.channel c).map Prod.fst
  lost : ∀ c j, (c, j) ∈ s.lost → OnLink s.sent c j ∧ (c, j) ∉ s.received
  received : ∀ c j, (c, j) ∈ s.received → OnLink s.sent c j ∧ j < s.seen c

namespace Wired
variable {s : Net}

theorem start (cids : List ℕ) (linkUp : ℕ → Bool) (params : List MeasureParam) (useLsn : Bool) :
    Wired (start cids linkUp params useLsn) where
  txSn := rfl
  txLocalSn _ := rfl
  seenLe _ := le_rfl
  flight _ _ h := by cases h
  order _ := List.Pairwise.nil
  account _ _ h := absurd h.lt (Nat.not_lt_zero _)
  lost _ _ h := by cases h
  received _ _ h := by cases h

theorem of_rx (h : Wired s) (rx : Receiver ℕ) : Wired { s with rx := rx } :=
  ⟨h.txSn, h.txLocalSn, h.seenLe, h.flight, h.order, h.account, h.lost, h.received⟩

theorem headerOf_append (cids : List ℕ) {c j : ℕ} (hj : j ≤ s.sent.length) :
    headerOf (s.sent ++ [cids]) c j = headerOf s.sent c j := by
  rw [headerOf, headerOf, rank_append cids hj]

theorem send (h : Wired s) {cids : List ℕ} (hn : cids.Nodup) : Wired (s.send cids) := by
  unfold Net.send
  rw [sendByCid_fold cids hn]
  have hlen : (s.sent ++ [cids]).length = s.sent.length + 1 := by simp
  have hnew : ∀ c, c ∈ cids → OnLink (s.sent ++ [cids]) c s.sent.length :=
    fun c hc => onLink_append.mpr (.inr ⟨rfl, hc⟩)
  have hmem : ∀ c, ∀ p ∈ (if c ∈ cids then
      s.channel c ++ [(s.sent.length, (⟨s.gmaTxSn, s.gmaTxLocalSn c, c⟩ : GmaHeader))]
      else s.channel c), p ∈ s.channel c ∨
        (c ∈ cids ∧ p = (s.sent.length, ⟨s.gmaTxSn, s.gmaTxLocalSn c, c⟩)) := by
    intro c p hp
    by_cases hc : c ∈ cids
    · rw [if_pos hc] at hp
      exact (List.mem_append.mp hp).imp_right fun hp => ⟨hc, List.mem_singleton.mp hp⟩
    · rw [if_neg hc] at hp
      exact .inl hp
  refine ⟨?_, ?_, ?_, ?_, ?_, ?_, ?_, ?_⟩
  · show nextSn s.gmaTxSn = _
    rw [nextSn_eq, h.txSn, Nat.mod_add_mod, hlen]
  · intro c
    show (if c ∈ cids then (s.gmaTxLocalSn c + 1) &&& maxGmaLsn else s.gmaTxLocalSn c) =
      rank (s.sent ++ [cids]) c (s.sent ++ [cids]).length % 256
    rw [hlen]
    by_cases hc : c ∈ cids
    · rw [if_pos hc, rank_succ_of_onLink (hnew c hc), rank_append cids le_rfl, h.txLocalSn c]
      exact (Nat.and_two_pow_sub_one_eq_mod _ 8).trans (Nat.mod_add_mod _ _ _)
    · have hr : rank (s.sent ++ [cids]) c (s.sent.length + 1) = rank s.sent c s.sent.length := by
        rw [rank, rank, ← hlen, List.take_length, List.take_length, List.countP_append]
        simp [hc]
      rw [if_neg hc, hr, h.txLocalSn c]
  · intro c
    have := h.seenLe c
    show s.seen c ≤ (s.sent ++ [cids]).length
    omega
  · intro c p hp
    rcases hmem c p hp with hp | ⟨hc, rfl⟩
    · obtain ⟨h1, h2, h3, h4⟩ := h.flight c p hp
      exact ⟨h1.trans (headerOf_append cids h2.lt.le).symm, onLink_append.mpr (.inl h2), h3, h4⟩
    · refine ⟨?_, hnew c hc, h.seenLe c, ?_⟩
      · show GmaHeader.mk s.gmaTxSn (s.gmaTxLocalSn c) c = _
        rw [headerOf_append cids le_rfl, headerOf, h.txSn, h.txLocalSn c]
      · intro hl
        exact absurd (h.lost c _ hl).1.lt (Nat.lt_irrefl _)
  · intro c
    show ((if c ∈ cids then _ else s.channel c).map Prod.fst).Pairwise (· < ·)
    by_cases hc : c ∈ cids
    · rw [if_pos hc, List.map_append, List.pairwise_append]
      refine ⟨h.order c, List.pairwise_singleton _ _, ?_⟩
      intro x hx y hy
      obtain ⟨p, hp, rfl⟩ := List.mem_map.mp hx
      obtain rfl : y = s.sent.length := List.mem_singleton.mp hy
      exact (h.flight c p hp).2.1.lt
    · rw [if_neg hc]
      exact h.order c
  · intro c j hj
    show _ ∨ _ ∨ j ∈ ((if c ∈ cids then
      s.channel c ++ [(s.sent.length, (⟨s.gmaTxSn, s.gmaTxLocalSn c, c⟩ : GmaHeader))]
      else s.channel c).map Prod.fst)
    rcases onLink_append.mp hj with hj | ⟨rfl, hc⟩
    · rcases h.account c j hj with hl | hs | hf
      · exact .inl hl
      · exact .inr (.inl hs)
      · refine .inr (.inr ?_)
        by_cases hc : c ∈ cids
        · rw [if_pos hc, List.map_append]
          exact List.mem_append_left _ hf
        · rw [if_neg hc]
          exact hf
    · refine .inr (.inr ?_)
      rw [if_pos hc, List.map_append]
      exact List.mem_append_right _ (by simp)
  · intro c j hl
    obtain ⟨h1, h2⟩ := h.lost c j hl
    exact ⟨onLink_append.mpr (.inl h1), h2⟩
  · intro c j hr
    obtain ⟨h1, h2⟩ := h.received c j hr
    exact ⟨onLink_append.mpr (.inl h1), h2⟩

theorem lose (h : Wired s) (cid k : ℕ) : Wired (s.lose cid k) := by
  unfold Net.lose
  cases hk : (s.channel cid)[k]? with
  | none => exact h
  | some p =>
    have hp : p ∈ s.channel cid := List.mem_of_getElem? hk
    have hsub : ∀ c, (Function.update s.channel cid ((s.channel cid).eraseIdx k) c).Sublist
        (s.channel c) := by
      intro c
      by_cases hc : c = cid
      · subst hc
        rw [Function.update_self]
        exact List.eraseIdx_sublist _ _
      · rw [Function.update_of_ne hc]
    have hgone : p.1 ∉ ((s.channel cid).eraseIdx k).map Prod.fst := by
      intro hm
      obtain ⟨q, hq, hqp⟩ := List.mem_map.mp hm
      obtain ⟨i, hik, hi⟩ := List.mem_eraseIdx_iff_getElem?.mp hq
      have hpw := List.pairwise_iff_getElem.mp (h.order cid)
      obtain ⟨hi', hiq⟩ := List.getElem?_eq_some_iff.mp hi
      obtain ⟨hk', hkp⟩ := List.getElem?_eq_some_iff.mp hk
      rcases Nat.lt_or_gt_of_ne hik with hlt | hlt
      · have := hpw i k (by simpa using hi') (by simpa using hk') hlt
        simp only [List.getElem_map, hiq, hkp] at this
        omega
      · have := hpw k i (by simpa using hk') (by simpa using hi') hlt
        simp only [List.getElem_map, hiq, hkp] at this
        omega
    refine ⟨h.txSn, h.txLocalSn, h.seenLe, ?_, ?_, ?_, ?_, h.received⟩
    · intro c q hq
      obtain ⟨h1, h2, h3, h4⟩ := h.flight c q ((hsub c).subset hq)
      refine ⟨h1, h2, h3, ?_⟩
      intro hl
      rcases List.mem_append.mp hl with hl | hl
      · exact h4 hl
      · obtain ⟨rfl, hqp⟩ := Prod.mk.inj (List.mem_singleton.mp hl)
        have hq' : q ∈ (s.channel c).eraseIdx k := by
          have : q ∈ Function.update s.channel c ((s.channel c).eraseIdx k) c := hq
          rwa [Function.update_self] at this
        exact hgone (List.mem_map.mpr ⟨q, hq', hqp⟩)
    · intro c
      exact (h.order c).sublist ((hsub c).map _)
    · intro c j hj
      rcases h.account c j hj with hl | hs | hf
      · exact .inl (List.mem_append_left _ hl)
      · exact .inr (.inl hs)
      · by_cases hc : c = cid
        · subst hc
          obtain ⟨q, hq, rfl⟩ := List.mem_map.mp hf
          by_cases hqp : q.1 = p.1
          · exact .inl (List.mem_append_right _ (by rw [hqp]; exact List.mem_singleton_self _))
          · refine .inr (.inr (List.mem_map.mpr ⟨q, ?_, rfl⟩))
            show q ∈ Function.update s.channel c ((s.channel c).eraseIdx k) c
            rw [Function.update_self]
            obtain ⟨i, hi⟩ := List.getElem?_of_mem hq
            refine List.mem_eraseIdx_iff_getElem?.mpr ⟨i, ?_, hi⟩
            rintro rfl
            rw [hk] at hi
            exact hqp (by rw [Option.some.inj hi])
        · refine .inr (.inr ?_)
          show j ∈ (Function.update s.channel cid _ c).map Prod.fst
          rw [Function.update_of_ne hc]
          exact hf
    · intro c j hl
      rcases List.mem_append.mp hl with hl | hl
      · exact h.lost c j hl
      · obtain ⟨rfl, rfl⟩ := Prod.mk.inj (List.mem_singleton.mp hl)
        obtain ⟨_, h2, h3, _⟩ := h.flight c p hp
        exact ⟨h2, fun hr => absurd (h.received c _ hr).2 (by omega)⟩

theorem arrive (h : Wired s) {cid m : ℕ} {gmaHeader : GmaHeader} {rest : List (ℕ × GmaHeader)}
    (hch : s.channel cid = (m, gmaHeader) :: rest) : Wired (s.arrive cid) := by
  obtain ⟨hhead, hon, hseen, hlost⟩ :=
    h.flight cid (m, gmaHeader) (by rw [hch]; exact List.mem_cons_self)
  have hord := h.order cid
  rw [hch, List.map_cons, List.pairwise_cons] at hord
  unfold Net.arrive
  rw [hch]
  refine ⟨h.txSn, h.txLocalSn, ?_, ?_, ?_, ?_, ?_, ?_⟩
  · intro c
    show Function.update s.seen cid (m + 1) c ≤ _
    by_cases hc : c = cid
    · subst hc
      rw [Function.update_self]
      exact hon.lt
    · rw [Function.update_of_ne hc]
      exact h.seenLe c
  · intro c p hp
    have hp' : p ∈ Function.update s.channel cid rest c := hp
    show _ ∧ _ ∧ Function.update s.seen cid (m + 1) c ≤ _ ∧ _
    by_cases hc : c = cid
    · subst hc
      rw [Function.update_self] at hp' ⊢
      obtain ⟨h1, h2, _, h4⟩ := h.flight c p (by rw [hch]; exact List.mem_cons_of_mem _ hp')
      exact ⟨h1, h2, hord.1 p.1 (List.mem_map.mpr ⟨p, hp', rfl⟩), h4⟩
    · rw [Function.update_of_ne hc] at hp' ⊢
      exact h.flight c p hp'
  · intro c
    show ((Function.update s.channel cid rest c).map Prod.fst).Pairwise (· < ·)
    by_cases hc : c = cid
    · subst hc
      rw [Function.update_self]
      exact hord.2
    · rw [Function.update_of_ne hc]
      exact h.order c
  · intro c j hj
    show _ ∨ j < Function.update s.seen cid (m + 1) c ∨
      j ∈ (Function.update s.channel cid rest c).map Prod.fst
    have hacc := h.account c j hj
    by_cases hc : c = cid
    · subst hc
      rw [Function.update_self, Function.update_self]
      rw [hch, List.map_cons, List.mem_cons] at hacc
      rcases hacc with hl | hs | rfl | hf
      · exact .inl hl
      · exact .inr (.inl (by omega))
      · exact .inr (.inl (Nat.lt_succ_self _))
      · exact .inr (.inr hf)
    · rw [Function.update_of_ne hc, Function.update_of_ne hc]
      exact hacc
  · intro c j hl
    obtain ⟨h1, h2⟩ := h.lost c j hl
    refine ⟨h1, ?_⟩
    intro hr
    rcases List.mem_append.mp hr with hr | hr
    · exact h2 hr
    · obtain ⟨rfl, rfl⟩ := Prod.mk.inj (List.mem_singleton.mp hr)
      exact hlost hl
  · intro c j hr
    show _ ∧ j < Function.update s.seen cid (m + 1) c
    rcases List.mem_append.mp hr with hr | hr
    · obtain ⟨h1, h2⟩ := h.received c j hr
      refine ⟨h1, ?_⟩
      by_cases hc : c = cid
      · subst hc
        rw [Function.update_self]
        omega
      · rwa [Function.update_of_ne hc]
    · obtain ⟨rfl, rfl⟩ := Prod.mk.inj (List.mem_singleton.mp hr)
      rw [Function.update_self]
      exact ⟨hon, Nat.lt_succ_self _⟩

end Wired
end Net
end NetGymSim.Gma

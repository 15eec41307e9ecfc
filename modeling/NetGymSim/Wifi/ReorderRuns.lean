import NetGymSim.Wifi.RecipientBlockAck

/-!
# Runs of the reordering buffer

While `WinStartB` is the residue of `base`, the order of the map is that of the numbers
without the wrap, each operation passes on the smallest numbers in order, and the rest
lies in the window. The end of a window that is set by an MPDU beyond it is computed in
16 bits: when it is below zero, `WinStartB` leaves the sequence number space.
-/

namespace NetGymSim.Wifi
open NetGymSim.Lib
namespace RecipientBlockAckAgreement

structure Buffered (base : ℕ) (l : List (ℕ × ℕ)) : Prop where
  sorted : l.Pairwise fun x y => x.2 < y.2
  near : ∀ x ∈ l, x.1 = x.2 % 4096 ∧ base ≤ x.2 ∧ x.2 < base + 4096

theorem distance_of_near {base n : ℕ} (h1 : base ≤ n) (h2 : n < base + 4096) :
    getDistance (n % 4096) (base % 4096) = n - base := by
  obtain ⟨d, rfl⟩ := Nat.exists_eq_add_of_le h1
  rw [getDistance_eq (Nat.mod_lt _ (by omega)), forward_residue base (by omega)]
  omega

theorem keyRank_of_near {base n : ℕ} (h1 : base ≤ n) (h2 : n < base + 4096) :
    keyRank (base % 4096) (n % 4096) = n - base := by
  have hd := distance_of_near h1 h2
  unfold getDistance at hd
  unfold keyRank
  have h0 : 0 ≤ ((n % 4096 : ℕ) : ℤ) - (base % 4096 : ℕ) + 4096 := by omega
  rw [Int.tmod_eq_emod_of_nonneg h0] at hd ⊢
  omega

theorem mem_insertMpdu {winStartB seq n : ℕ} {l : List (ℕ × ℕ)} {x : ℕ × ℕ}
    (hx : x ∈ insertMpdu winStartB seq n l) : x ∈ l ∨ x = (seq, n) := by
  induction l with
  | nil => exact .inr (List.mem_singleton.mp hx)
  | cons y l ih =>
    unfold insertMpdu at hx
    split_ifs at hx
    · rcases List.mem_cons.mp hx with rfl | hx
      · exact .inr rfl
      · exact .inl hx
    · rcases List.mem_cons.mp hx with rfl | hx
      · exact .inl List.mem_cons_self
      · rcases ih hx with h | h
        · exact .inl (List.mem_cons_of_mem _ h)
        · exact .inr h
    · exact .inl hx

namespace Buffered
variable {base n : ℕ} {l : List (ℕ × ℕ)}

theorem insert (h : Buffered base l) (h1 : base ≤ n) (h2 : n < base + 4096) :
    Buffered base (insertMpdu (base % 4096) (n % 4096) n l) := by
  refine ⟨?_, fun x hx => ?_⟩
  · induction l with
    | nil => exact List.pairwise_singleton _ _
    | cons y l ih =>
      obtain ⟨hy, hl⟩ := List.pairwise_cons.mp h.sorted
      have htail : Buffered base l := ⟨hl, fun x hx => h.near x (List.mem_cons_of_mem y hx)⟩
      obtain ⟨hres, hlo, hhi⟩ := h.near y List.mem_cons_self
      unfold insertMpdu
      rw [hres, keyRank_of_near h1 h2, keyRank_of_near hlo hhi]
      split_ifs with hlt hgt
      · refine List.pairwise_cons.mpr ⟨fun x hx => ?_, h.sorted⟩
        rcases List.mem_cons.mp hx with rfl | hx
        · show n < x.2
          omega
        · have := hy x hx
          show n < x.2
          omega
      · refine List.pairwise_cons.mpr ⟨fun x hx => ?_, ih htail⟩
        rcases mem_insertMpdu hx with hx | rfl
        · exact hy x hx
        · show y.2 < n
          omega
      · exact h.sorted
  · rcases mem_insertMpdu hx with hx | rfl
    · exact h.near x hx
    · exact ⟨rfl, h1, h2⟩

theorem untilFirstLost (h : Buffered base l) :
    let r := RecipientBlockAckAgreement.untilFirstLost (base % 4096) l
    r.1.Pairwise (· < ·) ∧ (∀ m ∈ r.1, base ≤ m ∧ m < base + r.1.length) ∧
      r.2.2 = (base + r.1.length) % 4096 ∧ Buffered (base + r.1.length) r.2.1 ∧
      ∀ x ∈ r.2.1, x ∈ l := by
  induction l generalizing base with
  | nil => simpa [RecipientBlockAckAgreement.untilFirstLost] using h
  | cons y l ih =>
    obtain ⟨hy, hl⟩ := List.pairwise_cons.mp h.sorted
    obtain ⟨hres, hlo, hhi⟩ := h.near y List.mem_cons_self
    unfold RecipientBlockAckAgreement.untilFirstLost
    by_cases he : y.1 = base % 4096
    · have hyb : y.2 = base := by omega
      have htail : Buffered (base + 1) l := by
        refine ⟨hl, fun x hx => ?_⟩
        have h1 := h.near x (List.mem_cons_of_mem y hx)
        have h2 := hy x hx
        exact ⟨h1.1, by omega, by omega⟩
      obtain ⟨i1, i2, i3, i4, i5⟩ := ih htail
      rw [if_pos he, Nat.mod_add_mod]
      dsimp only
      rw [List.length_cons, hyb, ← Nat.add_assoc, Nat.add_right_comm]
      refine ⟨List.pairwise_cons.mpr ⟨fun m hm => ?_, i1⟩, fun m hm => ?_, i3, i4,
        fun x hx => List.mem_cons_of_mem y (i5 x hx)⟩
      · have := i2 m hm
        omega
      · rcases List.mem_cons.mp hm with rfl | hm
        · omega
        · have := i2 m hm
          omega
    · rw [if_neg he]
      exact ⟨List.Pairwise.nil, nofun, rfl, h, fun x hx => hx⟩

end Buffered

/-! ### One operation -/

/-- The window starts in the sequence number space, the MPDUs passed up increase and lie
before it, and those still buffered lie in it. -/
structure Reordered (a : RecipientBlockAckAgreement ℕ) : Prop where
  start : a.winStartB < 4096
  base : a.winStartB = a.base % 4096
  increasing : a.forwarded.Pairwise (· < ·)
  passed : ∀ n ∈ a.forwarded, n < a.base
  window : ∀ x ∈ a.bufferedMpdus, x.1 = x.2 % 4096 ∧ getDistance x.1 a.winStartB < a.winSizeB

structure InWindow (a : RecipientBlockAckAgreement ℕ) : Prop where
  start : a.winStartB = a.base % 4096
  increasing : a.forwarded.Pairwise (· < ·)
  passed : ∀ n ∈ a.forwarded, n < a.base
  buffered : Buffered a.base a.bufferedMpdus
  window : ∀ x ∈ a.bufferedMpdus, x.2 < a.base + a.winSizeB

namespace InWindow
variable {a : RecipientBlockAckAgreement ℕ}

theorem reordered (h : InWindow a) : Reordered a where
  start := by
    rw [h.start]
    exact Nat.mod_lt _ (by omega)
  base := h.start
  increasing := h.increasing
  passed := h.passed
  window x hx := by
    obtain ⟨hres, hlo, hhi⟩ := h.buffered.near x hx
    have := h.window x hx
    rw [hres, h.start, distance_of_near hlo hhi]
    omega

theorem new (bufferSize : ℕ) {startingSeq : ℕ} (h : startingSeq < 4096) :
    InWindow (new bufferSize startingSeq) where
  start := (Nat.mod_eq_of_lt h).symm
  increasing := List.Pairwise.nil
  passed := nofun
  buffered := ⟨List.Pairwise.nil, nofun⟩
  window := nofun

theorem passBufferedMpdusUntilFirstLost (h : InWindow a) :
    InWindow a.passBufferedMpdusUntilFirstLost := by
  obtain ⟨i1, i2, i3, i4, i5⟩ := h.buffered.untilFirstLost
  rw [← h.start] at i1 i2 i3 i4 i5
  refine ⟨i3, ?_, ?_, i4, fun x hx => ?_⟩
  · refine List.pairwise_append.mpr ⟨h.increasing, i1, fun m hm n hn => ?_⟩
    exact (h.passed m hm).trans_le (i2 n hn).1
  · intro n hn
    rcases List.mem_append.mp hn with hn | hn
    · exact Nat.lt_add_right _ (h.passed n hn)
    · exact (i2 n hn).2
  · exact (h.window x (i5 x hx)).trans_le (Nat.add_le_add_right (Nat.le_add_right ..) _)

theorem passBufferedMpdusWithSeqNumberLessThan (start : a.winStartB = a.base % 4096)
    (increasing : a.forwarded.Pairwise (· < ·)) (passed : ∀ n ∈ a.forwarded, n < a.base)
    (buffered : Buffered a.base a.bufferedMpdus) {newBase : ℕ} (h1 : a.base ≤ newBase)
    (h2 : newBase < a.base + 4096)
    (window : ∀ x ∈ a.bufferedMpdus, newBase ≤ x.2 → x.2 < newBase + a.winSizeB) :
    InWindow (a.passBufferedMpdusWithSeqNumberLessThan (newBase % 4096)) ∧
      (a.passBufferedMpdusWithSeqNumberLessThan (newBase % 4096)).base = newBase := by
  have hdist : getDistance (newBase % 4096) a.winStartB = newBase - a.base := by
    rw [start, distance_of_near h1 h2]
  have hbase : a.base + getDistance (newBase % 4096) a.winStartB = newBase := by omega
  have hleft : ∀ x ∈ a.bufferedMpdus,
      decide (getDistance x.1 a.winStartB < getDistance (newBase % 4096) a.winStartB) =
        decide (x.2 < newBase) := by
    intro x hx
    obtain ⟨hres, hlo, hhi⟩ := buffered.near x hx
    rw [hdist, start, hres, distance_of_near hlo hhi, decide_eq_decide]
    omega
  obtain ⟨htake, hdrop⟩ := cut_congr hleft
  have htakeSub : (a.bufferedMpdus.takeWhile fun x => decide (x.2 < newBase)).Sublist
      a.bufferedMpdus := List.takeWhile_sublist _
  have hdropSub : (a.bufferedMpdus.dropWhile fun x => decide (x.2 < newBase)).Sublist
      a.bufferedMpdus := List.dropWhile_sublist _
  refine ⟨?_, hbase⟩
  unfold RecipientBlockAckAgreement.passBufferedMpdusWithSeqNumberLessThan
  dsimp only
  rw [htake, hdrop, hbase]
  refine ⟨rfl, ?_, ?_, ⟨buffered.sorted.sublist hdropSub, fun x hx => ?_⟩, fun x hx => ?_⟩
  · refine List.pairwise_append.mpr ⟨increasing, ?_, fun m hm n hn => ?_⟩
    · exact List.pairwise_map.mpr (buffered.sorted.sublist htakeSub)
    · obtain ⟨x, hx, rfl⟩ := List.mem_map.mp hn
      exact (passed m hm).trans_le (buffered.near x (htakeSub.subset hx)).2.1
  · intro n hn
    rcases List.mem_append.mp hn with hn | hn
    · exact (passed n hn).trans_le h1
    · obtain ⟨x, hx, rfl⟩ := List.mem_map.mp hn
      exact mem_takeWhile_lt hx
  · obtain ⟨hres, _, hhi⟩ := buffered.near x (hdropSub.subset hx)
    exact ⟨hres, le_of_mem_dropWhile buffered.sorted hx, by show x.2 < newBase + 4096; omega⟩
  · exact window x (hdropSub.subset hx) (le_of_mem_dropWhile buffered.sorted hx)

theorem notifyReceivedBar (h : InWindow a) {ssn : ℕ} (hs : ssn < 4096) :
    InWindow (a.notifyReceivedBar ssn) := by
  have hd : getDistance ssn a.winStartB = forward 4096 ssn (a.base % 4096) := by
    rw [h.start, getDistance_eq (Nat.mod_lt _ (by omega))]
  have hlt : forward 4096 ssn (a.base % 4096) < 4096 := forward_lt (by omega) _ _
  have hssn := residue_forward a.base hs
  unfold RecipientBlockAckAgreement.notifyReceivedBar
  dsimp only
  split_ifs with hmove
  · rw [hd, Nat.mod_eq_of_lt (by omega)] at hmove
    rw [← hssn]
    refine passBufferedMpdusUntilFirstLost (passBufferedMpdusWithSeqNumberLessThan ?_ ?_ ?_ ?_
      (Nat.le_add_right _ _) (Nat.add_lt_add_left hlt _) ?_).1
    · exact h.start
    · exact h.increasing
    · exact h.passed
    · exact h.buffered
    · intro x hx _
      exact (h.window x hx).trans_le (Nat.add_le_add_right (Nat.le_add_right ..) _)
  · exact ⟨h.start, h.increasing, h.passed, h.buffered, h.window⟩

theorem notifyReceivedMpdu (h : InWindow a) {seq : ℕ} (hs : seq < 4096) (hpos : 1 ≤ a.winSizeB)
    (hend : a.winSizeB ≤ getDistance seq a.winStartB → getDistance seq a.winStartB < 2048 →
      a.winSizeB ≤ seq + 1) :
    InWindow (a.notifyReceivedMpdu seq (a.base + getDistance seq a.winStartB)) := by
  have hd : getDistance seq a.winStartB = forward 4096 seq (a.base % 4096) := by
    rw [h.start, getDistance_eq (Nat.mod_lt _ (by omega))]
  have hlt : forward 4096 seq (a.base % 4096) < 4096 := forward_lt (by omega) _ _
  have hseq := residue_forward a.base hs
  rw [hd] at hend ⊢
  generalize hdist : forward 4096 seq (a.base % 4096) = d at hd hlt hseq hend
  have hins := h.buffered.insert (Nat.le_add_right a.base d) (by omega)
  rw [hseq, ← h.start] at hins
  unfold RecipientBlockAckAgreement.notifyReceivedMpdu
  dsimp only
  rw [hd, Nat.mod_eq_of_lt (by omega : d < 65536)]
  have hmem : ∀ x ∈ insertMpdu a.winStartB seq (a.base + d) a.bufferedMpdus,
      x ∈ a.bufferedMpdus ∨ x.2 = a.base + d := by
    intro x hx
    rcases mem_insertMpdu hx with hx | rfl
    · exact .inl hx
    · exact .inr rfl
  split_ifs with hin hbeyond
  · refine passBufferedMpdusUntilFirstLost ⟨h.start, h.increasing, h.passed, hins, fun x hx => ?_⟩
    show x.2 < a.base + a.winSizeB
    rcases hmem x hx with hx | hx
    · exact h.window x hx
    · omega
  · have hsize := hend (by omega) hbeyond
    -- the new end of the window is the number of the MPDU
    have hnew : a.windowEndingAt seq = (a.base + d + 1 - a.winSizeB) % 4096 := by
      unfold windowEndingAt
      omega
    show InWindow (RecipientBlockAckAgreement.passBufferedMpdusUntilFirstLost
      (RecipientBlockAckAgreement.passBufferedMpdusWithSeqNumberLessThan _ (a.windowEndingAt seq)))
    rw [hnew]
    refine passBufferedMpdusUntilFirstLost (passBufferedMpdusWithSeqNumberLessThan ?_ ?_ ?_ ?_
      (by show a.base ≤ _; omega) (by show _ < a.base + 4096; omega) ?_).1
    · exact h.start
    · exact h.increasing
    · exact h.passed
    · exact hins
    · intro x hx _
      show x.2 < a.base + d + 1 - a.winSizeB + a.winSizeB
      rcases hmem x hx with hx | hx
      · have := h.window x hx
        omega
      · omega
  · exact ⟨h.start, h.increasing, h.passed, h.buffered, h.window⟩

theorem winSizeB_notifyReceivedMpdu (seq n : ℕ) :
    (a.notifyReceivedMpdu seq n).winSizeB = a.winSizeB := by
  unfold RecipientBlockAckAgreement.notifyReceivedMpdu
  dsimp only
  split_ifs <;> rfl

theorem winSizeB_notifyReceivedBar (ssn : ℕ) :
    (a.notifyReceivedBar ssn).winSizeB = a.winSizeB := by
  unfold RecipientBlockAckAgreement.notifyReceivedBar
  dsimp only
  split_ifs <;> rfl

/-- A window end below zero puts `WinStartB` outside the sequence number space. -/
theorem not_reordered (h : InWindow a) {seq n : ℕ}
    (hbeyond : a.winSizeB ≤ getDistance seq a.winStartB)
    (hnear : getDistance seq a.winStartB < 2048) (hend : seq + 1 < a.winSizeB) :
    ¬ Reordered (a.notifyReceivedMpdu seq n) := by
  have hnew : 4096 ≤ a.windowEndingAt seq := by
    unfold windowEndingAt
    omega
  have hin : ¬ getDistance seq a.winStartB % 65536 < a.winSizeB := by omega
  have hhalf : getDistance seq a.winStartB % 65536 < 2048 := by omega
  intro hr
  have hstart := hr.start
  unfold RecipientBlockAckAgreement.notifyReceivedMpdu at hstart
  dsimp only at hstart
  rw [if_neg hin, if_pos hhalf] at hstart
  have hseq : ∀ x ∈ insertMpdu a.winStartB seq n a.bufferedMpdus, x.1 < 4096 := by
    intro x hx
    rcases mem_insertMpdu hx with hx | rfl
    · rw [(h.buffered.near x hx).1]
      exact Nat.mod_lt _ (by omega)
    · show seq < 4096
      omega
  -- nothing in the buffer has that number, so the start stays there
  have hstop : ∀ l : List (ℕ × ℕ), (∀ x ∈ l, x.1 < 4096) →
      (RecipientBlockAckAgreement.untilFirstLost (a.windowEndingAt seq) l).2.2 =
        a.windowEndingAt seq := by
    intro l hl
    cases l with
    | nil => rfl
    | cons y l =>
      have := hl y List.mem_cons_self
      rw [RecipientBlockAckAgreement.untilFirstLost, if_neg (by omega)]
  have hlt : (RecipientBlockAckAgreement.untilFirstLost (a.windowEndingAt seq)
      ((insertMpdu a.winStartB seq n a.bufferedMpdus).dropWhile _)).2.2 < 4096 := hstart
  rw [hstop _ fun x hx => hseq x (List.dropWhile_subset _ hx)] at hlt
  omega

end InWindow
end RecipientBlockAckAgreement

namespace Recipient
open RecipientBlockAckAgreement

/-- No MPDU from beyond the window has a sequence number below the size of the buffer. -/
def endAboveZero (s : Recipient) : BaEvent → Prop
  | .mpdu seq =>
      s.rx.winSizeB ≤ getDistance seq s.rx.winStartB → getDistance seq s.rx.winStartB < 2048 →
        s.rx.winSizeB ≤ seq + 1
  | .bar _ => True

instance (s : Recipient) : (e : BaEvent) → Decidable (endAboveZero s e)
  | .mpdu _ => inferInstanceAs (Decidable (_ → _ → _))
  | .bar _ => inferInstanceAs (Decidable True)

structure Follows (s : Recipient) : Prop where
  rx : InWindow s.rx
  size_pos : 1 ≤ s.rx.winSizeB

theorem Follows.new {bufferSize startingSeq : ℕ} (hb : 1 ≤ bufferSize) (hs : startingSeq < 4096) :
    Follows (new bufferSize startingSeq) := ⟨InWindow.new bufferSize hs, hb⟩

theorem Follows.step {s : Recipient} (h : Follows s) (e : BaEvent) (he : e.seq < 4096)
    (hk : endAboveZero s e) : Follows (next s e) := by
  cases e with
  | mpdu seq =>
    exact ⟨h.rx.notifyReceivedMpdu he h.size_pos hk,
      h.size_pos.trans_eq (InWindow.winSizeB_notifyReceivedMpdu _ _).symm⟩
  | bar ssn =>
    exact ⟨h.rx.notifyReceivedBar he,
      h.size_pos.trans_eq (InWindow.winSizeB_notifyReceivedBar _).symm⟩

theorem Follows.of_reaches {start s : Recipient} {es : List BaEvent} (h0 : Follows start)
    (h : (machine.restrict endAboveZero).Reaches start es s) : Follows s := by
  refine Machine.Reaches.invariant (P := Follows) h0 ?_ h
  intro s e hs ⟨he, hk⟩
  exact hs.step e he hk

theorem Follows.not_reordered {s : Recipient} (h : Follows s) {e : BaEvent}
    (hk : ¬ endAboveZero s e) : ¬ Reordered (next s e).rx := by
  cases e with
  | mpdu seq =>
    simp only [endAboveZero, Classical.not_imp, not_le] at hk
    exact h.rx.not_reordered hk.1 hk.2.1 hk.2.2
  | bar ssn => exact absurd trivial hk

theorem block_ack_reordering {bufferSize startingSeq : ℕ} (hb : 1 ≤ bufferSize)
    (hs : startingSeq < 4096) {es : List BaEvent} {s : Recipient}
    (h : machine.Reaches (new bufferSize startingSeq) es s) :
    (∀ before after, before ++ after = es →
        Reordered (machine.exec (new bufferSize startingSeq) before).rx) ↔
      (machine.restrict endAboveZero).Reaches (new bufferSize startingSeq) es s := by
  have h0 := Follows.new hb hs
  constructor
  · intro hgood
    induction h with
    | nil => exact .nil
    | @snoc es s e h he ih =>
      have hkept := ih fun before after hb =>
        hgood before (after ++ [e]) (by rw [← List.append_assoc, hb])
      refine hkept.snoc e ⟨he, ?_⟩
      by_contra hnot
      have hlast := hgood (es ++ [e]) [] (by simp)
      rw [Machine.exec_append, ← h.eq_exec] at hlast
      exact (h0.of_reaches hkept).not_reordered hnot hlast
  · rintro hkept before after rfl
    exact (h0.of_reaches hkept.of_append).rx.reordered

/-- The window from 4090 is crossed by a BAR and by MPDUs on both sides of the wrap. -/
def wrappedRun : List BaEvent :=
  [.mpdu 4092, .mpdu 2, .mpdu 4092, .bar 4091, .mpdu 4091, .mpdu 120, .mpdu 3, .mpdu 4080]

theorem block_ack_reordering_wrapped :
    (∀ before after, before ++ after = wrappedRun →
        Reordered (machine.exec (new 64 4090) before).rx) ↔
      (machine.restrict endAboveZero).Reaches (new 64 4090) wrappedRun
        (machine.exec (new 64 4090) wrappedRun) :=
  block_ack_reordering (by decide) (by decide) (Machine.Permits.reaches (by decide))

/-- The MPDU 60 arrives 66 after the window start 4090: the new start is 60 - 64 + 1. -/
theorem window_start_below_zero :
    machine.Permits (new 64 4090) [.mpdu 60] ∧
      (machine.exec (new 64 4090) [.mpdu 60]).rx.winStartB = 65533 ∧
      ¬ Reordered (machine.exec (new 64 4090) [.mpdu 60]).rx := by
  refine ⟨by decide, by decide, fun h => ?_⟩
  exact absurd h.start (by decide)

end Recipient
end NetGymSim.Wifi

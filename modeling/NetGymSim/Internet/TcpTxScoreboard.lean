import NetGymSim.Internet.TcpTxCounters

/-!
# Flags and counters

Each operation on the flags of the sent list keeps the counters exact, under the
condition, where there is one, that keeps it from flagging an item twice. The head of the
sent list is never sacked between operations.
-/

namespace NetGymSim.Internet.TcpTxBuffer
open Lib Network
variable {α : Type*} {items : List (TcpTxItem α)} {b b' : TcpTxBuffer α} {p k n seq : ℕ}

def RenoSafe (items : List (TcpTxItem α)) : Prop :=
  ∀ item ∈ items.find? fun i => !i.sacked, item.lost = false

instance (items : List (TcpTxItem α)) : Decidable (RenoSafe items) :=
  inferInstanceAs (Decidable (∀ item ∈ items.find? fun i => !i.sacked, item.lost = false))

/-- Where the head is sacked its flag can be handed to the next item that has none. -/
def RenoOk : List (TcpTxItem α) → Prop
  | [] => True
  | head :: rest => head.sacked = true → RenoSafe rest

instance : (items : List (TcpTxItem α)) → Decidable (RenoOk items)
  | [] => inferInstanceAs (Decidable True)
  | _ :: _ => inferInstanceAs (Decidable (_ → RenoSafe _))

section Reno

theorem sackFirst_spec {item : TcpTxItem α} (h : (sackFirst items).2 = some item) :
    items.find? (fun i => !i.sacked) = some item ∧
      tally (·.sacked) (sackFirst items).1 = tally (·.sacked) items + item.size ∧
      tally (·.lost) (sackFirst items).1 = tally (·.lost) items ∧
      tally (·.retrans) (sackFirst items).1 = tally (·.retrans) items ∧
      tally (·.sacked) items + item.size ≤ bytes items ∧
      (item.lost = false → Exclusive items → Exclusive (sackFirst items).1) := by
  induction items with
  | nil => cases h
  | cons first rest ih =>
    cases hs : first.sacked with
    | true =>
      simp only [sackFirst, hs, if_true] at h ⊢
      obtain ⟨h1, h2, h3, h4, h5, h6⟩ := ih h
      simp only [tally_cons, bytes_cons, hs, if_true, h2, h3, h4, Exclusive.cons_iff, true_and]
      refine ⟨by simp [hs, h1], by omega, by omega, ?_⟩
      exact fun hl h7 => ⟨h7.1, h6 hl h7.2⟩
    | false =>
      simp only [sackFirst, hs, if_false, Bool.false_eq_true, Option.some.injEq] at h ⊢
      subst h
      have hle := tally_le (fun i => i.sacked) rest
      simp only [tally_cons, bytes_cons, hs, if_true, if_false, Bool.false_eq_true,
        Exclusive.cons_iff, TcpTxItem.size] at hle ⊢
      refine ⟨by simp [hs], by omega, trivial, trivial, by omega, ?_⟩
      exact fun hl h7 => ⟨by simp [hl], h7.2⟩

theorem Counted.addRenoSack (hc : Counted b) (hsmall : bytes b.sentList < 4294967296)
    (hsafe : ∀ head rest, b.sentList = head :: rest → RenoSafe rest) :
    Counted b.addRenoSack ∧ (HeadClear b.sentList → HeadClear b.addRenoSack.sentList) := by
  cases hs : b.sentList with
  | nil =>
    simp only [TcpTxBuffer.addRenoSack, hs]
    exact ⟨hc, fun h => by simp⟩
  | cons head rest =>
    cases hr : (sackFirst rest).2 with
    | none =>
      simp only [TcpTxBuffer.addRenoSack, hs, hr]
      exact ⟨hc, id⟩
    | some item =>
      simp only [TcpTxBuffer.addRenoSack, hs, hr]
      obtain ⟨h1, h2, h3, h4, h5, h6⟩ := sackFirst_spec hr
      have hlost : item.lost = false := hsafe head rest hs item (by rw [h1]; rfl)
      obtain ⟨c1, c2, c3, c4, c5⟩ := hc
      rw [hs] at c1 c2 c3 c4 hsmall
      rw [bytes_cons] at hsmall
      rw [Exclusive.cons_iff] at c4
      have hsum : tally (·.sacked) (head :: rest) + item.size < 4294967296 := by
        rw [tally_cons]
        split_ifs <;> omega
      refine ⟨⟨?_, ?_, ?_, ?_, c5⟩, ?_⟩
      · simp only [c1, tally_cons, h2] at hsum ⊢
        rw [Counter.exactly_add hsum, Nat.add_assoc]
      · simp only [c2, tally_cons, h3]
      · simp only [c3, tally_cons, h4]
      · simp only [Exclusive.cons_iff]
        exact ⟨c4.1, h6 hlost c4.2⟩
      · simp

theorem Counted.markHeadAsLost (hc : Counted b) (hsmall : bytes b.sentList < 4294967296) :
    Counted b.markHeadAsLost ∧ HeadClear b.markHeadAsLost.sentList := by
  cases hs : b.sentList with
  | nil =>
    simp only [TcpTxBuffer.markHeadAsLost, hs]
    exact ⟨hc, by simp⟩
  | cons head rest =>
    simp only [TcpTxBuffer.markHeadAsLost, hs]
    obtain ⟨c1, c2, c3, c4, c5⟩ := hc
    rw [hs] at c1 c2 c3 c4 hsmall
    have l1 := tally_le (fun i : TcpTxItem α => i.sacked) rest
    have l2 := tally_le (fun i : TcpTxItem α => i.lost) rest
    have l3 := tally_le (fun i : TcpTxItem α => i.retrans) rest
    simp only [bytes_cons, tally_cons, Exclusive.cons_iff] at hsmall c1 c2 c3 c4
    refine ⟨⟨?_, ?_, ?_, ?_, c5⟩, by simp⟩
    · simp only [tally_cons, Bool.false_eq_true, if_false, Nat.zero_add, c1]
      split_ifs
      · rw [Counter.exactly_sub (by omega) (by omega), Nat.add_sub_cancel_left]
      · rw [Nat.zero_add]
    · simp only [tally_cons, if_true, c2, TcpTxItem.size] at l2 hsmall ⊢
      split_ifs
      · rfl
      · rw [Nat.zero_add, Counter.exactly_add (by omega), Nat.add_comm]
    · simp only [tally_cons, Bool.false_eq_true, if_false, Nat.zero_add, c3]
      split_ifs
      · rw [Counter.exactly_sub (by omega) (by omega), Nat.add_sub_cancel_left]
      · rw [Nat.zero_add]
    · simp only [Exclusive.cons_iff, Bool.false_eq_true, false_and, not_false_iff, true_and]
      exact c4.2

theorem Counted.unsackHead (hc : Counted b) (hsmall : bytes b.sentList < 4294967296)
    (hok : RenoOk b.sentList) : Counted b.unsackHead ∧ HeadClear b.unsackHead.sentList := by
  cases hs : b.sentList with
  | nil =>
    simp only [TcpTxBuffer.unsackHead, hs]
    exact ⟨hc, by simp⟩
  | cons head rest =>
    cases hsack : head.sacked with
    | false =>
      simp only [TcpTxBuffer.unsackHead, hs, hsack, Bool.false_eq_true, if_false]
      exact ⟨hc, by simpa using hsack⟩
    | true =>
      simp only [TcpTxBuffer.unsackHead, hs, hsack, if_true]
      obtain ⟨c1, c2, c3, c4, c5⟩ := hc
      rw [hs] at c1 c2 c3 c4 hsmall hok
      have l1 := tally_le (fun i : TcpTxItem α => i.sacked) rest
      have hunsacked : Counted { b with
          sentList := { head with sacked := false } :: rest
          sackedOut := b.sackedOut.sub head.size } := by
        simp only [bytes_cons, tally_cons, Exclusive.cons_iff, hsack, if_true] at hsmall c1 c4
        refine ⟨?_, ?_, ?_, ?_, c5⟩
        · simp only [tally_cons, Bool.false_eq_true, if_false, Nat.zero_add, c1]
          rw [Counter.exactly_sub (by omega) (by omega), Nat.add_sub_cancel_left]
        · simp only [c2, tally_cons, TcpTxItem.size]
        · simp only [c3, tally_cons, TcpTxItem.size]
        · simp only [Exclusive.cons_iff, Bool.false_eq_true, false_and, not_false_iff, true_and]
          exact c4.2
      have hbytes : bytes ({ head with sacked := false } :: rest) < 4294967296 := by
        simpa [TcpTxItem.size] using hsmall
      have hreno := (hunsacked.addRenoSack hbytes (by
        intro head' rest' heq
        obtain ⟨-, rfl⟩ := List.cons.inj heq
        exact hok hsack)).1
      apply hreno.markHeadAsLost
      rw [bytes_eq_of_content (content_of_shape (shape_addRenoSack _))]
      exact hbytes

end Reno

section Reset

theorem Counted.deleteRetransmittedFlagFromHead (hc : Counted b)
    (hsmall : bytes b.sentList < 4294967296) :
    Counted b.deleteRetransmittedFlagFromHead ∧
      (HeadClear b.sentList → HeadClear b.deleteRetransmittedFlagFromHead.sentList) := by
  simp only [TcpTxBuffer.deleteRetransmittedFlagFromHead]
  by_cases h0 : b.sentSize.value = 0
  · rw [if_pos h0]
    exact ⟨hc, id⟩
  · rw [if_neg h0]
    cases hs : b.sentList with
    | nil =>
      simp only
      exact ⟨hc, fun _ => by simp [hs]⟩
    | cons head rest =>
      cases hr : head.retrans with
      | false =>
        simp only [hr, Bool.false_eq_true, if_false, hs]
        exact ⟨hc, id⟩
      | true =>
        simp only [hr, if_true]
        obtain ⟨c1, c2, c3, c4, c5⟩ := hc
        rw [hs] at c1 c2 c3 c4 hsmall
        have l3 := tally_le (fun i : TcpTxItem α => i.retrans) rest
        simp only [bytes_cons, tally_cons, Exclusive.cons_iff, hr, if_true] at hsmall c1 c2 c3 c4
        refine ⟨⟨?_, ?_, ?_, ?_, c5⟩, by simp⟩
        · simp only [c1, tally_cons, TcpTxItem.size]
        · simp only [c2, tally_cons, TcpTxItem.size]
        · simp only [tally_cons, Bool.false_eq_true, if_false, Nat.zero_add, c3]
          rw [Counter.exactly_sub (by omega) (by omega), Nat.add_sub_cancel_left]
        · simpa using c4

theorem tally_map_false (f : TcpTxItem α → TcpTxItem α) (flag : TcpTxItem α → Bool)
    (h : ∀ item, flag (f item) = false) : tally flag (items.map f) = 0 := by
  apply tally_clear
  intro item hm
  obtain ⟨i, -, rfl⟩ := List.mem_map.mp hm
  exact h i

theorem tally_map_same (f : TcpTxItem α → TcpTxItem α) (flag : TcpTxItem α → Bool)
    (h : ∀ item, flag (f item) = flag item) (hs : ∀ item, (f item).size = item.size) :
    tally flag (items.map f) = tally flag items := by
  induction items with
  | nil => rfl
  | cons item rest ih => simp [h, hs, ih]

theorem Counted.resetRenoSack (hc : Counted b) :
    Counted b.resetRenoSack ∧ HeadClear b.resetRenoSack.sentList := by
  refine ⟨⟨?_, ?_, ?_, ?_, hc.appClear⟩, ?_⟩
  · simp only [TcpTxBuffer.resetRenoSack, hc.sacked, Counter.exactly_set]
    rw [tally_map_false _ _ fun _ => rfl]
  · simp only [TcpTxBuffer.resetRenoSack, hc.lost]
    rw [tally_map_same (fun item => { item with sacked := false }) _ (fun _ => rfl) fun _ => rfl]
  · simp only [TcpTxBuffer.resetRenoSack, hc.retrans]
    rw [tally_map_same (fun item => { item with sacked := false }) _ (fun _ => rfl) fun _ => rfl]
  · intro item hm
    obtain ⟨i, -, rfl⟩ := List.mem_map.mp hm
    simp
  · intro item hm
    have hmem := List.mem_of_mem_head? hm
    obtain ⟨i, -, rfl⟩ := List.mem_map.mp hmem
    rfl

theorem Counted.resetSentList (hc : Counted b) :
    Counted b.resetSentList ∧ HeadClear b.resetSentList.sentList := by
  refine ⟨⟨?_, ?_, ?_, ?_, ?_⟩, by simp [TcpTxBuffer.resetSentList]⟩
  · simp [TcpTxBuffer.resetSentList, hc.sacked]
  · simp [TcpTxBuffer.resetSentList, hc.lost]
  · simp [TcpTxBuffer.resetSentList, hc.retrans]
  · simp [TcpTxBuffer.resetSentList, Exclusive]
  · intro item hm
    rcases List.mem_append.mp hm with hm | hm
    · obtain ⟨i, -, rfl⟩ := List.mem_map.mp hm
      exact ⟨rfl, rfl, rfl⟩
    · exact hc.appClear item hm

theorem Counted.resetLastSegmentSent (hc : Counted b)
    (hl : ∀ item ∈ b.sentList.getLast?, Clear item) :
    Counted b.resetLastSegmentSent ∧
      (HeadClear b.sentList → HeadClear b.resetLastSegmentSent.sentList) := by
  simp only [TcpTxBuffer.resetLastSegmentSent]
  cases hlast : b.sentList.getLast? with
  | none => exact ⟨hc, id⟩
  | some item =>
    obtain ⟨i1, i2, i3⟩ := hl item (by rw [hlast]; rfl)
    have hsplit : b.sentList = b.sentList.dropLast ++ [item] :=
      (List.dropLast_append_getLast? item hlast).symm
    obtain ⟨c1, c2, c3, c4, c5⟩ := hc
    rw [hsplit] at c1 c2 c3 c4
    simp only [tally_append, tally_cons, tally_nil, i1, i2, i3, Bool.false_eq_true, if_false,
      Nat.add_zero, Exclusive.append_iff] at c1 c2 c3 c4
    refine ⟨⟨c1, c2, ?_, c4.1, ?_⟩, ?_⟩
    · simp only [i2, Bool.false_eq_true, if_false]
      exact c3
    · intro i hm
      rcases List.mem_cons.mp hm with rfl | hm
      · exact ⟨i1, i2, i3⟩
      · exact c5 i hm
    · intro hh i hm
      apply hh
      rw [hsplit]
      cases hd : b.sentList.dropLast with
      | nil =>
        rw [hd] at hm
        cases hm
      | cons head rest =>
        rw [hd] at hm
        exact hm

theorem loseItems_reset (items : List (TcpTxItem α)) (c : Counter) :
    loseItems true items c =
      (items.map fun item => { item with sacked := false, lost := true, retrans := false }, c) := by
  induction items generalizing c with
  | nil => rfl
  | cons item rest ih => simp [loseItems, ih]

theorem loseItems_spec {x : ℕ} (hx : x + bytes items < 4294967296) :
    (loseItems false items (.exactly x)).2 =
        .exactly (x + tally (·.lost) (loseItems false items (.exactly x)).1) ∧
      tally (·.sacked) (loseItems false items (.exactly x)).1 = tally (·.sacked) items ∧
      tally (·.retrans) (loseItems false items (.exactly x)).1 = 0 ∧
      (Exclusive items → Exclusive (loseItems false items (.exactly x)).1) ∧
      (HeadClear items → HeadClear (loseItems false items (.exactly x)).1) := by
  induction items generalizing x with
  | nil => simp [loseItems]
  | cons item rest ih =>
    rw [bytes_cons] at hx
    have hsum := Counter.exactly_add (show x + item.size < 4294967296 by omega)
    obtain ⟨k1, k2, k3, k4, -⟩ := ih (x := x) (by omega)
    obtain ⟨h1, h2, h3, h4, -⟩ := ih (x := x + item.size) (by omega)
    cases hl : item.lost <;> cases hs : item.sacked <;>
      simp only [loseItems, hl, hs, hsum, tally_cons, Exclusive.cons_iff, headClear_cons,
        Bool.false_eq_true, if_true, if_false, not_true, not_false_iff, Nat.zero_add]
    · refine ⟨by rw [h1, Nat.add_assoc]; rfl, by rw [h2], h3, ?_, id⟩
      exact fun hi => ⟨by simp, h4 hi.2⟩
    · refine ⟨k1, by rw [k2]; rfl, k3, ?_, id⟩
      exact fun hi => ⟨by simp, k4 hi.2⟩
    · refine ⟨by rw [h1, Nat.add_assoc]; rfl, by rw [h2], h3, ?_, id⟩
      exact fun hi => ⟨by simp, h4 hi.2⟩
    · refine ⟨by rw [h1, Nat.add_assoc]; rfl, by rw [h2]; rfl, h3, ?_, id⟩
      exact fun hi => absurd ⟨trivial, trivial⟩ hi.1

theorem Counted.setSentListLost (hl : Laid p b) (hc : Counted b) (resetSack : Bool) :
    Counted (b.setSentListLost resetSack) ∧
      (HeadClear b.sentList → HeadClear (b.setSentListLost resetSack).sentList) := by
  have hsmall := hl.small
  cases resetSack with
  | true =>
    simp only [TcpTxBuffer.setSentListLost, if_true, loseItems_reset, hl.sentSize, hc.lost,
      hc.sacked, hc.retrans, Counter.exactly_value, Counter.exactly_set]
    have hall : ∀ items : List (TcpTxItem α), tally (·.lost) (items.map fun item =>
        { item with sacked := false, lost := true, retrans := false }) = bytes items := by
      intro items
      induction items with
      | nil => rfl
      | cons item rest ih => simp [ih, TcpTxItem.size]
    refine ⟨⟨?_, ?_, ?_, ?_, hc.appClear⟩, fun _ => ?_⟩
    · exact congrArg Counter.exactly (tally_map_false _ _ fun _ => rfl).symm
    · exact congrArg Counter.exactly (hall _).symm
    · exact congrArg Counter.exactly (tally_map_false _ _ fun _ => rfl).symm
    · intro item hm
      obtain ⟨i, -, rfl⟩ := List.mem_map.mp hm
      simp
    · intro item hm
      obtain ⟨i, -, rfl⟩ := List.mem_map.mp (List.mem_of_mem_head? hm)
      rfl
  | false =>
    obtain ⟨h1, h2, h3, h4, h5⟩ := loseItems_spec (x := 0) (show 0 + bytes b.sentList < _ by omega)
    simp only [TcpTxBuffer.setSentListLost, Bool.false_eq_true, if_false, hc.lost,
      Counter.exactly_set]
    refine ⟨⟨?_, ?_, ?_, h4 hc.exclusive, hc.appClear⟩, h5⟩
    · simp only [h2, hc.sacked]
    · simp only [h1, Nat.zero_add]
    · simp only [h3, hc.retrans, Counter.exactly_set]

end Reset

section Update
variable {sb : Scoreboard} {x y : ℕ}

def HeadOpen (b : TcpTxBuffer α) (list : List (ℕ × ℕ)) : Prop :=
  ∀ head ∈ b.sentList.head?, ∀ block ∈ list,
    ¬ (seqGe b.firstByteSeq block.1 ∧ seqLe (seqAdd b.firstByteSeq head.size) block.2)

instance (b : TcpTxBuffer α) (list : List (ℕ × ℕ)) : Decidable (HeadOpen b list) :=
  inferInstanceAs (Decidable (∀ head ∈ b.sentList.head?, ∀ block ∈ list, _))

/-- The counters of the scoreboard are the sums over the list, beside `x` and `y` bytes of
others. -/
structure Scored (x y : ℕ) (items : List (TcpTxItem α)) (sb : Scoreboard) : Prop where
  lost : sb.lostOut = .exactly (x + tally (·.lost) items)
  sacked : sb.sackedOut = .exactly (y + tally (·.sacked) items)
  lostSmall : x + bytes items < 4294967296
  sackedSmall : y + bytes items < 4294967296
  exclusive : Exclusive items

theorem Scored.tail {item : TcpTxItem α} (h : Scored x y (item :: items) sb) :
    Scored (x + if item.lost then item.size else 0) (y + if item.sacked then item.size else 0)
      items sb := by
  obtain ⟨h1, h2, h3, h4, h5⟩ := h
  rw [tally_cons, ← Nat.add_assoc] at h1 h2
  rw [bytes_cons] at h3 h4
  rw [Exclusive.cons_iff] at h5
  exact ⟨h1, h2, by split_ifs <;> omega, by split_ifs <;> omega, h5.2⟩

theorem Scored.cons (item : TcpTxItem α)
    (h : Scored (x + if item.lost then item.size else 0)
      (y + if item.sacked then item.size else 0) items sb)
    (hx : x + (item.size + bytes items) < 4294967296)
    (hy : y + (item.size + bytes items) < 4294967296)
    (hi : ¬ (item.sacked = true ∧ item.lost = true)) : Scored x y (item :: items) sb := by
  obtain ⟨h1, h2, -, -, h5⟩ := h
  rw [Nat.add_assoc] at h1 h2
  rw [← @tally_cons α (fun i => i.lost)] at h1
  rw [← @tally_cons α (fun i => i.sacked)] at h2
  exact ⟨h1, h2, by rwa [bytes_cons], by rwa [bytes_cons], Exclusive.cons_iff.mpr ⟨hi, h5⟩⟩

theorem Scored.sacked_item {item : TcpTxItem α} (h : Scored x y (item :: items) sb)
    (hs : item.sacked = false) (m : ℕ) (high : Option ℕ × ℕ) :
    Scored (x + 0) (y + item.size) items
      ⟨if item.lost then sb.lostOut.sub item.size else sb.lostOut,
        sb.sackedOut.add item.size, m, high⟩ := by
  have hx := h.lostSmall
  have hy := h.sackedSmall
  have hle₁ := tally_le (fun i => i.lost) items
  have hle₂ := tally_le (fun i => i.sacked) items
  obtain ⟨h1, h2, -, -, h5⟩ := h.tail
  rw [bytes_cons] at hx hy
  simp only [hs, Bool.false_eq_true, if_false, Nat.add_zero] at h2
  refine ⟨?_, ?_, by omega, by omega, h5⟩
  · cases hl : item.lost <;>
      simp only [hl, Bool.false_eq_true, if_true, if_false, Nat.add_zero] at h1 ⊢
    · exact h1
    · rw [h1, Counter.exactly_sub (by omega) (by omega)]
      congr 1
      omega
  · simp only
    rw [h2, Counter.exactly_add (by omega)]
    congr 1
    omega

theorem bytes_sackBlock (block : ℕ × ℕ) (items : List (TcpTxItem α)) (begin : ℕ)
    (sb : Scoreboard) : bytes (sackBlock block items begin sb).1 = bytes items :=
  bytes_eq_of_content (content_of_shape (shape_sackBlock block items begin sb))

theorem Scored.sackBlock (h : Scored x y items sb) (block : ℕ × ℕ) (begin : ℕ) :
    Scored x y (TcpTxBuffer.sackBlock block items begin sb).1
        (TcpTxBuffer.sackBlock block items begin sb).2 ∧
      tally (·.retrans) (TcpTxBuffer.sackBlock block items begin sb).1 =
        tally (·.retrans) items := by
  induction items generalizing begin sb x y with
  | nil => exact ⟨h, rfl⟩
  | cons item rest ih =>
    have ht := h.tail
    have hx := h.lostSmall
    have hy := h.sackedSmall
    have hi : ¬ (item.sacked = true ∧ item.lost = true) := (Exclusive.cons_iff.mp h.exclusive).1
    rw [bytes_cons] at hx hy
    have hb := bytes_sackBlock block rest (seqAdd begin item.size)
    have hkeep : ∀ sb', Scored (x + if item.lost then item.size else 0)
        (y + if item.sacked then item.size else 0) rest sb' →
        Scored x y (item :: (TcpTxBuffer.sackBlock block rest (seqAdd begin item.size) sb').1)
            (TcpTxBuffer.sackBlock block rest (seqAdd begin item.size) sb').2 ∧
          tally (·.retrans)
              (item :: (TcpTxBuffer.sackBlock block rest (seqAdd begin item.size) sb').1) =
            tally (·.retrans) (item :: rest) := by
      intro sb' h'
      obtain ⟨h1, h2⟩ := ih h' (seqAdd begin item.size)
      exact ⟨h1.cons item (by rw [hb]; exact hx) (by rw [hb]; exact hy) hi, by
        rw [tally_cons, tally_cons, h2]⟩
    rw [TcpTxBuffer.sackBlock]
    by_cases hin : seqGe begin block.1 ∧ seqLe (seqAdd begin item.size) block.2
    · rw [if_pos hin]
      by_cases hs : item.sacked = true
      · rw [if_pos hs]
        exact hkeep _ ht
      · rw [if_neg hs]
        obtain ⟨k1, k2⟩ := ih (h.sacked_item (by simpa using hs) _ _) (seqAdd begin item.size)
        refine ⟨Scored.cons { item with lost := false, sacked := true } k1 ?_ ?_ ?_, ?_⟩
        · rw [hb]
          exact hx
        · rw [hb]
          exact hy
        · simp
        · rw [tally_cons, tally_cons, k2]
          rfl
    · rw [if_neg hin]
      split_ifs with hout
      · exact ⟨h, rfl⟩
      · exact hkeep _ ht

theorem headClear_sackBlock (block : ℕ × ℕ) (items : List (TcpTxItem α)) (begin : ℕ)
    (sb : Scoreboard) (h : HeadClear items) (ho : ∀ head ∈ items.head?,
      ¬ (seqGe begin block.1 ∧ seqLe (seqAdd begin head.size) block.2)) :
    HeadClear (TcpTxBuffer.sackBlock block items begin sb).1 := by
  cases items with
  | nil => exact h
  | cons head rest =>
    rw [TcpTxBuffer.sackBlock, if_neg (ho head rfl)]
    split_ifs
    · exact h
    · simpa using h

theorem Scored.sackBlocks (h : Scored 0 0 items sb) (firstByteSeq sentSize : ℕ)
    (blocks : List (ℕ × ℕ)) (hh : HeadClear items) (ho : ∀ head ∈ items.head?, ∀ block ∈ blocks,
      ¬ (seqGe firstByteSeq block.1 ∧ seqLe (seqAdd firstByteSeq head.size) block.2)) :
    Scored 0 0 (TcpTxBuffer.sackBlocks firstByteSeq sentSize blocks items sb).1
        (TcpTxBuffer.sackBlocks firstByteSeq sentSize blocks items sb).2.1 ∧
      tally (·.retrans) (TcpTxBuffer.sackBlocks firstByteSeq sentSize blocks items sb).1 =
        tally (·.retrans) items ∧
      HeadClear (TcpTxBuffer.sackBlocks firstByteSeq sentSize blocks items sb).1 := by
  induction blocks generalizing items sb with
  | nil => exact ⟨h, rfl, hh⟩
  | cons block blocks ih =>
    rw [TcpTxBuffer.sackBlocks]
    split_ifs with hout
    · exact ⟨h, rfl, hh⟩
    · obtain ⟨h1, h2⟩ := h.sackBlock block firstByteSeq
      have h3 := headClear_sackBlock block items firstByteSeq sb hh fun head hm =>
        ho head hm block List.mem_cons_self
      obtain ⟨k1, k2, k3⟩ := ih h1 h3 (by
        intro head hm block' hb
        have hsize : ∃ head' ∈ items.head?, head'.size = head.size := by
          have hshape := shape_sackBlock block items firstByteSeq sb
          cases items with
          | nil => simp [TcpTxBuffer.sackBlock] at hm
          | cons head' rest =>
            cases hr : (TcpTxBuffer.sackBlock block (head' :: rest) firstByteSeq sb).1 with
            | nil =>
              rw [hr] at hm
              cases hm
            | cons i l =>
              rw [hr] at hm hshape
              cases hm
              simp only [shape, List.map_cons, List.cons.injEq, Prod.mk.injEq] at hshape
              exact ⟨head', rfl, by rw [TcpTxItem.size, TcpTxItem.size, hshape.1.2]⟩
        obtain ⟨head', hm', heq⟩ := hsize
        rw [← heq]
        exact ho head' hm' block' (List.mem_cons_of_mem block hb))
      exact ⟨k1, k2.trans h2, k3⟩

theorem loseBelow_spec (dupAckThresh sacked : ℕ) {c : Counter}
    (hc : c = .exactly (x + tally (·.lost) items)) (hx : x + bytes items < 4294967296) :
    (loseBelow dupAckThresh items sacked c).2.2 =
        .exactly (x + tally (·.lost) (loseBelow dupAckThresh items sacked c).1) ∧
      tally (·.sacked) (loseBelow dupAckThresh items sacked c).1 = tally (·.sacked) items ∧
      tally (·.retrans) (loseBelow dupAckThresh items sacked c).1 = tally (·.retrans) items ∧
      (Exclusive items → Exclusive (loseBelow dupAckThresh items sacked c).1) := by
  induction items generalizing c x sacked with
  | nil => exact ⟨hc, rfl, rfl, id⟩
  | cons item rest ih =>
    have hle := tally_le (fun i => i.lost) rest
    rw [tally_cons, ← Nat.add_assoc] at hc
    rw [bytes_cons] at hx
    simp only [loseBelow]
    by_cases hlose : dupAckThresh ≤ (if item.sacked then sacked + 1 else sacked) ∧
        ¬ item.sacked ∧ ¬ item.lost
    · rw [if_pos hlose]
      obtain ⟨-, hs, hl⟩ := hlose
      have hc' : c.add item.size = .exactly (x + item.size + tally (·.lost) rest) := by
        simp only [hl, Bool.false_eq_true, if_false, Nat.add_zero] at hc
        rw [hc, Counter.exactly_add (by omega)]
        congr 1
        omega
      obtain ⟨h1, h2, h3, h4⟩ := ih (if item.sacked then sacked + 1 else sacked) hc' (by omega)
      simp only [tally_cons, if_true, h1, h2, h3, Exclusive.cons_iff, ← Nat.add_assoc]
      exact ⟨rfl, rfl, rfl, fun hi => ⟨by simp [hs], h4 hi.2⟩⟩
    · rw [if_neg hlose]
      obtain ⟨h1, h2, h3, h4⟩ := ih (if item.sacked then sacked + 1 else sacked) hc
        (by split_ifs <;> omega)
      simp only [tally_cons, h1, h2, h3, Exclusive.cons_iff, ← Nat.add_assoc]
      exact ⟨trivial, trivial, trivial, fun hi => ⟨hi.1, h4 hi.2⟩⟩

theorem Counted.loseScan {head : TcpTxItem α} {rest : List (TcpTxItem α)} (hc : Counted b)
    (hs : b.sentList = head :: rest) (hsmall : bytes b.sentList < 4294967296)
    (hh : head.sacked = false) (n : ℕ) :
    let r := loseBelow b.dupAckThresh (rest.take n).reverse 0 b.lostOut
    let head' := if b.dupAckThresh ≤ r.2.1 ∧ ¬ head.lost then { head with lost := true } else head
    Counted { b with
        sentList := head' :: (r.1.reverse ++ rest.drop n)
        lostOut :=
          if b.dupAckThresh ≤ r.2.1 ∧ ¬ head.lost then r.2.2.add head.size else r.2.2 } ∧
      head'.sacked = false := by
  obtain ⟨c1, c2, c3, c4, c5⟩ := hc
  have hrev : ∀ l : List (TcpTxItem α), bytes l.reverse = bytes l := by
    intro l
    simp [bytes, List.sum_reverse]
  rw [hs, ← List.take_append_drop n rest] at c1 c2 c3 c4 hsmall
  simp only [tally_cons, tally_append, bytes_cons, bytes_append, Exclusive.cons_iff,
    Exclusive.append_iff] at c1 c2 c3 c4 hsmall
  have hlost : b.lostOut = .exactly ((if head.lost then head.size else 0) +
      tally (·.lost) (rest.drop n) + tally (·.lost) (rest.take n).reverse) := by
    rw [c2, tally_reverse]
    congr 1
    omega
  have hle := tally_le (fun i => i.lost) (rest.drop n)
  obtain ⟨h1, h2, h3, h4⟩ := loseBelow_spec b.dupAckThresh 0 hlost
    (by rw [hrev]; split_ifs <;> omega)
  have h5 := h4 fun i hm => c4.2.1 i (List.mem_reverse.mp hm)
  have hshape := bytes_eq_of_content (content_of_shape
    (shape_loseBelow b.dupAckThresh (rest.take n).reverse 0 b.lostOut))
  have hle' := tally_le (fun i => i.lost)
    (loseBelow b.dupAckThresh (rest.take n).reverse 0 b.lostOut).1
  rw [hrev] at hshape
  rw [tally_reverse] at h2 h3
  refine ⟨⟨?_, ?_, ?_, ?_, c5⟩, ?_⟩
  · simp only [tally_cons, tally_append, tally_reverse, h2, c1]
    split_ifs <;> simp_all [TcpTxItem.size]
  · simp only [tally_cons, tally_append, tally_reverse, h1]
    by_cases hlose : b.dupAckThresh ≤
        (loseBelow b.dupAckThresh (rest.take n).reverse 0 b.lostOut).2.1 ∧ ¬ head.lost
    · obtain ⟨-, hl⟩ := id hlose
      simp only [if_pos hlose]
      simp only [hl, Bool.false_eq_true, if_false, if_true, Nat.zero_add]
      rw [Counter.exactly_add (by omega)]
      congr 1
      simp only [TcpTxItem.size]
      omega
    · simp only [if_neg hlose]
      congr 1
      omega
  · simp only [tally_cons, tally_append, tally_reverse, h3, c3]
    split_ifs <;> simp_all [TcpTxItem.size]
  · simp only [Exclusive.cons_iff, Exclusive.append_iff]
    refine ⟨?_, fun i hm => h5 i (List.mem_reverse.mp hm), c4.2.2⟩
    split_ifs <;> simp [hh]
  · split_ifs <;> exact hh

theorem Counted.updateLostCount (hc : Counted b) (hsmall : bytes b.sentList < 4294967296)
    (hh : HeadClear b.sentList) :
    Counted b.updateLostCount ∧ HeadClear b.updateLostCount.sentList := by
  cases hs : b.sentList with
  | nil =>
    simp only [TcpTxBuffer.updateLostCount, hs]
    exact ⟨hc, by simp⟩
  | cons head rest =>
    rw [hs, headClear_cons] at hh
    simp only [TcpTxBuffer.updateLostCount, hs, headClear_cons]
    exact hc.loseScan hs hsmall hh _

theorem Counted.update (hc : Counted b) (hsmall : bytes b.sentList < 4294967296)
    (hh : HeadClear b.sentList) {list : List (ℕ × ℕ)} (ho : HeadOpen b list) :
    Counted (b.update list).1 ∧ HeadClear (b.update list).1.sentList := by
  have hstart : Scored 0 0 b.sentList ⟨b.lostOut, b.sackedOut, 0, b.highestSack⟩ :=
    ⟨by rw [Nat.zero_add]; exact hc.lost, by rw [Nat.zero_add]; exact hc.sacked, by omega,
      by omega, hc.exclusive⟩
  obtain ⟨⟨h1, h2, -, -, h3⟩, h4, h5⟩ :=
    hstart.sackBlocks b.firstByteSeq b.sentSize.value list hh ho
  rw [Nat.zero_add] at h1 h2
  have hbytes := bytes_eq_of_content (content_of_shape (shape_sackBlocks b.firstByteSeq
    b.sentSize.value list b.sentList ⟨b.lostOut, b.sackedOut, 0, b.highestSack⟩))
  simp only [TcpTxBuffer.update]
  have hretrans := hc.retrans
  rw [← h4] at hretrans
  split_ifs with hscan
  · apply Counted.updateLostCount
    · exact ⟨h2, h1, hretrans, h3, hc.appClear⟩
    · exact hbytes ▸ hsmall
    · exact h5
  · exact ⟨⟨h2, h1, hretrans, h3, hc.appClear⟩, h5⟩

end Update
end NetGymSim.Internet.TcpTxBuffer

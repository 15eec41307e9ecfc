import NetGymSim.Internet.TcpTxScoreboard

/-!
# The counters over whole runs

A run issues every operation of the transmit buffer as the socket does. Where a step meets
its condition all counters are the sums they stand for afterwards, and none of them went
below zero on the way; where a step fails it, an item can end up with flags that no
counter knows of.
-/

namespace NetGymSim.Internet.TcpTxBuffer
open Lib Network
variable {α : Type*} {items : List (TcpTxItem α)} {b b' : TcpTxBuffer α} {p k n seq : ℕ}

def remaining : List (TcpTxItem α) → ℕ → List (TcpTxItem α)
  | [], _ => []
  | item :: rest, offset =>
    if item.size ≤ offset then remaining rest (offset - item.size)
    else { item with packet := item.packet.drop offset } :: rest

section Discard

theorem Counted.create (headSeq maxBuffer dupAckThresh : ℕ) :
    Counted (create headSeq maxBuffer dupAckThresh : TcpTxBuffer α) := by
  constructor <;> simp [TcpTxBuffer.create, Exclusive]

theorem Counted.add (hc : Counted b) (d : List α) : Counted (b.add d).1 := by
  simp only [TcpTxBuffer.add]
  split_ifs
  · refine ⟨hc.sacked, hc.lost, hc.retrans, hc.exclusive, ?_⟩
    intro item hm
    rcases List.mem_append.mp hm with hm | hm
    · exact hc.appClear item hm
    · rw [List.mem_singleton.mp hm]
      exact ⟨rfl, rfl, rfl⟩
  · exact hc
  · exact hc

theorem Counted.discardItem (hc : Counted b) (hsmall : bytes b.sentList < 4294967296)
    {item : TcpTxItem α} {rest : List (TcpTxItem α)} (hs : b.sentList = item :: rest) :
    Counted (b.discardItem item rest) := by
  obtain ⟨c1, c2, c3, c4, c5⟩ := hc
  rw [hs] at c1 c2 c3 c4 hsmall
  have hdrop : ∀ (flag : TcpTxItem α → Bool) (c : Counter),
      c = .exactly (tally flag (item :: rest)) →
      (if flag item then c.sub item.size else c) = .exactly (tally flag rest) := by
    intro flag c hc
    have hle := tally_le flag rest
    rw [bytes_cons] at hsmall
    rw [tally_cons] at hc
    split_ifs at hc ⊢
    · rw [hc, Counter.exactly_sub (by omega) (by omega), Nat.add_sub_cancel_left]
    · rw [hc, Nat.zero_add]
  exact ⟨hdrop _ _ c1, hdrop _ _ c2, hdrop _ _ c3, (Exclusive.cons_iff.mp c4).2, c5⟩

theorem Counted.discardPart (hc : Counted b) (hsmall : bytes b.sentList < 4294967296)
    {item : TcpTxItem α} {rest : List (TcpTxItem α)} {m : ℕ} (hs : b.sentList = item :: rest)
    (hm : m < item.size) : Counted (b.discardPart item rest m) := by
  obtain ⟨c1, c2, c3, c4, c5⟩ := hc
  rw [hs] at c1 c2 c3 c4 hsmall
  have hcut : ∀ (flag : TcpTxItem α → Bool) (c : Counter) (item' : TcpTxItem α),
      flag item' = flag item → item'.size = item.size - m →
      c = .exactly (tally flag (item :: rest)) →
      (if flag item then c.sub m else c) = .exactly (tally flag (item' :: rest)) := by
    intro flag c item' hf hsize hc
    have hle := tally_le flag rest
    rw [bytes_cons] at hsmall
    rw [tally_cons] at hc
    rw [tally_cons, hf, hsize]
    split_ifs at hc ⊢
    · rw [hc, Counter.exactly_sub (by omega) (by omega)]
      congr 1
      omega
    · exact hc
  have hsize : TcpTxItem.size { item with
      packet := item.packet.drop m
      startSeq := seqAdd item.startSeq m } = item.size - m := by
    simp [TcpTxItem.size]
  refine ⟨hcut _ _ _ rfl hsize c1, hcut _ _ _ rfl hsize c2, hcut _ _ _ rfl hsize c3, ?_, c5⟩
  rw [Exclusive.cons_iff] at c4
  exact Exclusive.cons_iff.mpr c4

theorem remaining_zero (hf : Full items) (h : RenoOk (remaining items 0)) : RenoOk items := by
  cases items with
  | nil => trivial
  | cons item rest =>
    have hpos := hf.size_pos List.mem_cons_self
    rw [remaining, if_neg (by omega)] at h
    exact h

theorem Counted.moved (hl : Laid p b) (hc : Counted b) (hs : b.sentList = []) {r : TcpTxItem α}
    (hcopy : b.copyFromSequence n b.firstByteSeq = some (b', some r)) :
    Counted b' ∧ ∀ left, RenoOk (remaining b'.sentList left) := by
  have hnone : bytes b.sentList = 0 := by rw [hs, bytes_nil]
  have hseq : b.firstByteSeq < 4294967296 := by
    rw [hl.first]
    exact Nat.mod_lt _ (by omega)
  rcases copyFrom_cases hl hseq hcopy with
    rfl | ⟨k, s, item, -, hpos, -, ⟨hle, -⟩ | ⟨-, hle, hg⟩⟩
  · refine ⟨hc, fun left => ?_⟩
    rw [hs]
    trivial
  · omega
  · obtain ⟨h1, h2⟩ := hc.new hg
    obtain ⟨b₁, item₁, hb₁, -, hlist, -⟩ := getNewSegment_spec hl hpos hle
    rw [hb₁] at hg
    cases hg
    rw [hs, List.nil_append] at hlist
    rw [hs, hlist] at h2
    have hclear : item.sacked = false := by simpa using h2
    refine ⟨h1, fun left => ?_⟩
    rw [hlist]
    simp only [remaining]
    split_ifs
    · trivial
    · intro hsack
      exact absurd hsack (by simp [hclear])

theorem Counted.discardLoop (hl : Laid p b) (hc : Counted b) {turns offset : ℕ}
    (hok : RenoOk (remaining b.sentList offset)) (hr : discardLoop turns b offset = some b') :
    Counted b' ∧ RenoOk b'.sentList ∧ bytes b'.sentList < 4294967296 := by
  have hstart : ∃ p, Laid p b ∧ Counted b ∧ RenoOk (remaining b.sentList offset) :=
    ⟨p, hl, hc, hok⟩
  obtain ⟨left, ⟨q, h1, h2, h3⟩, hcase⟩ := discardLoop_rule
    (P := fun left b' => ∃ p, Laid p b' ∧ Counted b' ∧ RenoOk (remaining b'.sentList left)) (by
      intro b b' item offset ⟨p, h1, h2, _⟩ hs _ _ hcopy
      have hseq : b.firstByteSeq < 4294967296 := by
        rw [h1.first]
        exact Nat.mod_lt _ (by omega)
      obtain ⟨h3, h4⟩ := h2.moved h1 hs hcopy
      exact ⟨p, (h1.copyFromSequence hseq hcopy).1, h3, h4 offset⟩) (by
      intro b item rest offset ⟨p, h1, h2, h3⟩ hs hle
      have hsmall := h1.small
      rw [hs, remaining, if_pos hle] at h3
      exact ⟨_, (h1.discardItem hs).1, h2.discardItem (by omega) hs, h3⟩) (by
      intro b item rest offset ⟨p, h1, h2, h3⟩ hs hlt
      have hsmall := h1.small
      obtain ⟨h4, -⟩ := h1.discardPart hs hlt
      have hpos := h4.fullSent.size_pos List.mem_cons_self
      rw [hs, remaining, if_neg (by omega)] at h3
      refine ⟨_, h4, h2.discardPart (by omega) hs hlt, ?_⟩
      simp only [TcpTxBuffer.discardPart, removeFromCounts, remaining]
      rw [if_neg (Nat.not_le.mpr hpos)]
      exact h3) hstart hr
  have hsmall := h1.small
  refine ⟨h2, ?_, by omega⟩
  rcases hcase with rfl | h0
  · exact remaining_zero h1.fullSent h3
  · rw [h1.size, Counter.exactly_value] at h0
    rw [h1.fullSent.eq_nil (by omega)]
    trivial

theorem Counted.discardUpTo (hl : Laid p b) (hc : Counted b) (hh : HeadClear b.sentList)
    (hseq : seq < 4294967296) (hok : RenoOk (remaining b.sentList (b.discards seq)))
    (hr : b.discardUpTo seq = some b') : Counted b' ∧ HeadClear b'.sentList := by
  simp only [TcpTxBuffer.discardUpTo] at hr
  simp only [discards] at hok
  by_cases hold : seqGe b.firstByteSeq seq
  · rw [if_pos hold] at hr
    cases hr
    exact ⟨hc, hh⟩
  · rw [if_neg hold] at hr hok
    obtain ⟨b₁, hloop, rfl⟩ := Option.map_eq_some_iff.mp hr
    have hd : forward 4294967296 seq b.firstByteSeq =
        (seqSub seq b.firstByteSeq % 4294967296).toNat := by
      obtain ⟨k, hk, rfl⟩ : ∃ k < 4294967296, seq = seqAt (p + k) :=
        ⟨forward 4294967296 seq (p % 4294967296), forward_lt (by omega) _ _,
          (residue_forward p hseq).symm⟩
      rw [hl.first]
      exact (forward_residue p hk).trans (seqSub_word p hk).symm
    rw [hd] at hok
    obtain ⟨h1, h2, h3⟩ := hc.discardLoop hl hok hloop
    have hfollow : Counted (b₁.followEmpty seq) ∧
        (b₁.followEmpty seq).sentList = b₁.sentList := by
      rw [followEmpty]
      split_ifs
      · exact ⟨⟨h1.sacked, h1.lost, h1.retrans, h1.exclusive, h1.appClear⟩, rfl⟩
      · exact ⟨h1, rfl⟩
    obtain ⟨h4, h5⟩ := hfollow
    obtain ⟨h6, h7⟩ := h4.unsackHead (by rw [h5]; exact h3) (by rw [h5]; exact h2)
    rw [dropHighestSack]
    split_ifs
    · exact ⟨⟨h6.sacked, h6.lost, h6.retrans, h6.exclusive, h6.appClear⟩, h7⟩
    · exact ⟨h6, h7⟩

end Discard

section Copy

/-- Which requests the socket makes: one byte as a probe, the start of a sent item that is not
sacked, or data that was not sent yet. -/
def Issued (b : TcpTxBuffer α) (numBytes seq : ℕ) : Prop :=
  numBytes = 1 ∨ (∃ item ∈ b.sentList, item.startSeq = seq ∧ item.sacked = false) ∨
    b.sentFrom seq = 0

instance decidableIssued (b : TcpTxBuffer α) (numBytes seq : ℕ) :
    Decidable (b.Issued numBytes seq) :=
  inferInstanceAs (Decidable (_ ∨ _ ∨ _))

theorem Counted.copyFromSequence (hl : Laid p b) (hc : Counted b) (hh : HeadClear b.sentList)
    (hseq : seq < 4294967296) (hi : b.Issued n seq) {r : Option (TcpTxItem α)}
    (hcopy : b.copyFromSequence n seq = some (b', r)) : Counted b' ∧ HeadClear b'.sentList := by
  rcases copyFrom_cases hl hseq hcopy with
    rfl | ⟨k, s, item, rfl, hpos, hsn, ⟨hle, hg⟩ | ⟨-, -, hg⟩⟩
  · exact ⟨hc, hh⟩
  · have hd : s = 1 ∨ ∃ item ∈ b.sentList, item.startSeq = seqAt (p + k) ∧
        item.sacked = false := by
      rcases hi with rfl | hitem | hend
      · left
        omega
      · exact .inr hitem
      · rw [hl.sentFrom (by omega)] at hend
        omega
    obtain ⟨h1, h2⟩ := hc.transmitted hl hpos hle hd hg
    exact ⟨h1, h2 hh⟩
  · obtain ⟨h1, h2⟩ := hc.new hg
    exact ⟨h1, h2 hh⟩

end Copy

inductive Operation (α : Type*)
  | add (p : List α)
  | copyFromSequence (numBytes seq : ℕ)
  | discardUpTo (seq : ℕ)
  | update (list : List (ℕ × ℕ))
  | setSentListLost (resetSack : Bool)
  | markHeadAsLost
  | deleteRetransmittedFlagFromHead
  | addRenoSack
  | resetRenoSack
  | resetLastSegmentSent
  | resetSentList

def enabled (b : TcpTxBuffer α) : Operation α → Prop
  | .copyFromSequence numBytes seq =>
      seq < 4294967296 ∧ (b.copyFromSequence numBytes seq).isSome ∧ b.Issued numBytes seq
  | .discardUpTo seq => seq < 4294967296
  | _ => True

def perform (b : TcpTxBuffer α) : Operation α → TcpTxBuffer α
  | .add p => (b.add p).1
  | .copyFromSequence numBytes seq =>
      ((b.copyFromSequence numBytes seq).map Prod.fst).getD b
  | .discardUpTo seq => (b.discardUpTo seq).getD b
  | .update list => (b.update list).1
  | .setSentListLost resetSack => b.setSentListLost resetSack
  | .markHeadAsLost => b.markHeadAsLost
  | .deleteRetransmittedFlagFromHead => b.deleteRetransmittedFlagFromHead
  | .addRenoSack => b.addRenoSack
  | .resetRenoSack => b.resetRenoSack
  | .resetLastSegmentSent => b.resetLastSegmentSent
  | .resetSentList => b.resetSentList

instance decidableCanIssue (b : TcpTxBuffer α) : (o : Operation α) → Decidable (b.enabled o)
  | .add _ => inferInstanceAs (Decidable True)
  | .copyFromSequence _ _ => inferInstanceAs (Decidable (_ ∧ _ ∧ _))
  | .discardUpTo _ => inferInstanceAs (Decidable (_ < _))
  | .update _ => inferInstanceAs (Decidable True)
  | .setSentListLost _ => inferInstanceAs (Decidable True)
  | .markHeadAsLost => inferInstanceAs (Decidable True)
  | .deleteRetransmittedFlagFromHead => inferInstanceAs (Decidable True)
  | .addRenoSack => inferInstanceAs (Decidable True)
  | .resetRenoSack => inferInstanceAs (Decidable True)
  | .resetLastSegmentSent => inferInstanceAs (Decidable True)
  | .resetSentList => inferInstanceAs (Decidable True)

def scoreboard : Machine (TcpTxBuffer α) (Operation α) := ⟨enabled, perform⟩

instance decidableScoreboard (b : TcpTxBuffer α) (o : Operation α) :
    Decidable (scoreboard.enabled b o) :=
  inferInstanceAs (Decidable (b.enabled o))

/-- The step flags nothing twice and moves no flagged item out of the sent list. -/
def Tracks (b : TcpTxBuffer α) : Operation α → Prop
  | .add p => b.size.value + p.length < 2147483648
  | .discardUpTo seq => RenoOk (remaining b.sentList (b.discards seq))
  | .update list => HeadOpen b list
  | .addRenoSack => RenoSafe b.sentList.tail
  | .resetLastSegmentSent => ∀ item ∈ b.sentList.getLast?, Clear item
  | _ => True

instance decidableTracks (b : TcpTxBuffer α) : (o : Operation α) → Decidable (b.Tracks o)
  | .add _ => inferInstanceAs (Decidable (_ < _))
  | .copyFromSequence _ _ => inferInstanceAs (Decidable True)
  | .discardUpTo _ => inferInstanceAs (Decidable (RenoOk _))
  | .update _ => inferInstanceAs (Decidable (HeadOpen _ _))
  | .setSentListLost _ => inferInstanceAs (Decidable True)
  | .markHeadAsLost => inferInstanceAs (Decidable True)
  | .deleteRetransmittedFlagFromHead => inferInstanceAs (Decidable True)
  | .addRenoSack => inferInstanceAs (Decidable (RenoSafe _))
  | .resetRenoSack => inferInstanceAs (Decidable True)
  | .resetLastSegmentSent =>
      inferInstanceAs (Decidable (∀ item ∈ b.sentList.getLast?, Clear item))
  | .resetSentList => inferInstanceAs (Decidable True)

/-- What `ConsistencyCheck` asserts; a counter that is `exactly` a sum never went below zero. -/
structure CountersExact (b : TcpTxBuffer α) : Prop where
  size : b.size = .exactly (bytes b.sentList + bytes b.appList)
  sentSize : b.sentSize = .exactly (bytes b.sentList)
  sackedOut : b.sackedOut = .exactly (tally (·.sacked) b.sentList)
  lostOut : b.lostOut = .exactly (tally (·.lost) b.sentList)
  retrans : b.retrans = .exactly (tally (·.retrans) b.sentList)
  exclusive : ∀ item ∈ b.sentList, ¬ (item.sacked = true ∧ item.lost = true)

section Invariant

structure Consistent (b : TcpTxBuffer α) : Prop where
  laid : ∃ p, Laid p b
  counted : Counted b
  head : HeadClear b.sentList

namespace Consistent

theorem create (headSeq maxBuffer dupAckThresh : ℕ) :
    Consistent (create (seqAt headSeq) maxBuffer dupAckThresh : TcpTxBuffer α) :=
  ⟨⟨headSeq, .create headSeq maxBuffer dupAckThresh⟩, .create _ _ _, by
    simp [TcpTxBuffer.create]⟩

theorem small (h : Consistent b) : bytes b.sentList < 4294967296 := by
  obtain ⟨p, hl⟩ := h.laid
  have hsmall := hl.small
  omega

theorem flags (h : Consistent b) (hs : shape b'.sentList = shape b.sentList)
    (hf : frame b' = frame b) (hc : Counted b') (hh : HeadClear b'.sentList) : Consistent b' := by
  obtain ⟨p, hl⟩ := h.laid
  exact ⟨⟨p, (hl.flags hs hf).1⟩, hc, hh⟩

theorem step (h : Consistent b) {o : Operation α} (he : b.enabled o) (ht : b.Tracks o) :
    Consistent (b.perform o) := by
  obtain ⟨p, hl⟩ := h.laid
  have hsmall := h.small
  have hc := h.counted
  cases o with
  | add d =>
    have hfit : b.size.value + d.length < 2147483648 := ht
    rw [hl.size, Counter.exactly_value] at hfit
    have hlist : (b.add d).1.sentList = b.sentList := by
      simp only [TcpTxBuffer.add]
      split_ifs <;> rfl
    refine ⟨⟨p, (hl.add d hfit).1⟩, hc.add d, ?_⟩
    rw [perform, hlist]
    exact h.head
  | copyFromSequence numBytes seq =>
    obtain ⟨hseq, hsome, hi⟩ := he
    obtain ⟨⟨b', r⟩, hcopy⟩ := Option.isSome_iff_exists.mp hsome
    obtain ⟨h1, h2⟩ := hc.copyFromSequence hl h.head hseq hi hcopy
    simp only [perform, hcopy, Option.map_some, Option.getD_some]
    exact ⟨⟨p, (hl.copyFromSequence hseq hcopy).1⟩, h1, h2⟩
  | discardUpTo seq =>
    obtain ⟨b', hd, h1, -⟩ := hl.discardUpTo he
    obtain ⟨h2, h3⟩ := hc.discardUpTo hl h.head he ht hd
    simp only [perform, hd, Option.getD_some]
    exact ⟨⟨_, h1⟩, h2, h3⟩
  | update list =>
    obtain ⟨h1, h2⟩ := hc.update hsmall h.head ht
    exact ⟨⟨p, (hl.update list).1⟩, h1, h2⟩
  | setSentListLost resetSack =>
    obtain ⟨h1, h2⟩ := hc.setSentListLost hl resetSack
    exact h.flags (shape_loseItems _ _ _) rfl h1 (h2 h.head)
  | markHeadAsLost =>
    obtain ⟨h1, h2⟩ := hc.markHeadAsLost hsmall
    exact h.flags (shape_markHeadAsLost b) (frame_markHeadAsLost b) h1 h2
  | deleteRetransmittedFlagFromHead =>
    obtain ⟨h1, h2⟩ := hc.deleteRetransmittedFlagFromHead hsmall
    exact h.flags (shape_deleteRetransmittedFlagFromHead b)
      (frame_deleteRetransmittedFlagFromHead b) h1 (h2 h.head)
  | addRenoSack =>
    obtain ⟨h1, h2⟩ := hc.addRenoSack hsmall (by
      intro head rest hs
      have hsafe : RenoSafe b.sentList.tail := ht
      rwa [hs] at hsafe)
    exact h.flags (shape_addRenoSack b) (frame_addRenoSack b) h1 (h2 h.head)
  | resetRenoSack =>
    obtain ⟨h1, h2⟩ := hc.resetRenoSack
    refine h.flags ?_ rfl h1 h2
    simp [perform, TcpTxBuffer.resetRenoSack, shape]
  | resetLastSegmentSent =>
    obtain ⟨h1, h2⟩ := hc.resetLastSegmentSent ht
    exact ⟨⟨p, hl.resetLastSegmentSent.1⟩, h1, h2 h.head⟩
  | resetSentList =>
    obtain ⟨h1, h2⟩ := hc.resetSentList
    exact ⟨⟨p, hl.resetSentList.1⟩, h1, h2⟩

theorem countersExact (h : Consistent b) : CountersExact b := by
  obtain ⟨p, hl⟩ := h.laid
  exact ⟨hl.size, hl.sentSize, h.counted.sacked, h.counted.lost, h.counted.retrans,
    h.counted.exclusive⟩

theorem reached {headSeq maxBuffer dupAckThresh : ℕ} {es : List (Operation α)}
    (h : (scoreboard.restrict Tracks).Reaches
      (TcpTxBuffer.create (seqAt headSeq) maxBuffer dupAckThresh) es b) : Consistent b := by
  apply Machine.Reaches.invariant (P := Consistent) (create headSeq maxBuffer dupAckThresh) _ h
  intro b o hb he
  exact hb.step he.1 he.2

end Consistent
end Invariant

section Reachable

/-- Less than half of the sequence space is stored. -/
def Roomy (b : TcpTxBuffer α) : Operation α → Prop
  | .add p => b.size.value + p.length < 2147483648
  | _ => True

instance decidableRoomy (b : TcpTxBuffer α) : (o : Operation α) → Decidable (b.Roomy o)
  | .add _ => inferInstanceAs (Decidable (_ < _))
  | .copyFromSequence _ _ | .discardUpTo _ | .update _ | .setSentListLost _ | .markHeadAsLost
  | .deleteRetransmittedFlagFromHead | .addRenoSack | .resetRenoSack | .resetLastSegmentSent
  | .resetSentList => inferInstanceAs (Decidable True)

def advance (b : TcpTxBuffer α) : Operation α → ℕ
  | .discardUpTo seq => b.discards seq
  | _ => 0

theorem Laid.perform (hl : Laid p b) {o : Operation α} (he : b.enabled o) (hr : b.Roomy o) :
    Laid (p + b.advance o) (b.perform o) := by
  cases o with
  | add d =>
    have hfit : b.size.value + d.length < 2147483648 := hr
    rw [hl.size, Counter.exactly_value] at hfit
    exact (hl.add d hfit).1
  | copyFromSequence numBytes seq =>
    obtain ⟨⟨b', r⟩, hcopy⟩ := Option.isSome_iff_exists.mp he.2.1
    simp only [TcpTxBuffer.perform, hcopy, Option.map_some, Option.getD_some]
    exact (hl.copyFromSequence he.1 hcopy).1
  | discardUpTo seq =>
    obtain ⟨b', hd, h1, -⟩ := hl.discardUpTo he
    simp only [TcpTxBuffer.perform, hd, Option.getD_some]
    exact h1
  | update list => exact (hl.update list).1
  | setSentListLost resetSack =>
    have hlost : Laid p (b.setSentListLost resetSack) ∧ _ :=
      hl.flags (shape_loseItems _ _ _) rfl
    exact hlost.1
  | markHeadAsLost => exact (hl.flags (shape_markHeadAsLost b) (frame_markHeadAsLost b)).1
  | deleteRetransmittedFlagFromHead =>
    exact (hl.flags (shape_deleteRetransmittedFlagFromHead b)
      (frame_deleteRetransmittedFlagFromHead b)).1
  | addRenoSack => exact (hl.flags (shape_addRenoSack b) (frame_addRenoSack b)).1
  | resetRenoSack =>
    have hreset : Laid p b.resetRenoSack ∧ _ :=
      hl.flags (by simp [TcpTxBuffer.resetRenoSack, shape]) rfl
    exact hreset.1
  | resetLastSegmentSent => exact hl.resetLastSegmentSent.1
  | resetSentList => exact hl.resetSentList.1

theorem laid_reached {headSeq maxBuffer dupAckThresh : ℕ} {es : List (Operation α)}
    (h : (scoreboard.restrict Roomy).Reaches (create (seqAt headSeq) maxBuffer dupAckThresh)
      es b) : ∃ p, Laid p b := by
  apply Machine.Reaches.invariant (P := fun b => ∃ p, Laid p b) ⟨headSeq, .create _ _ _⟩ _ h
  intro b o hb he
  obtain ⟨p, hl⟩ := hb
  exact ⟨_, hl.perform he.1 he.2⟩

end Reachable

/-- In a run whose steps all meet their condition the counters are exact in every state. -/
theorem tcp_tx_buffer_counters_exact {α : Type*} (headSeq maxBuffer dupAckThresh : ℕ)
    {es : List (Operation α)} {b : TcpTxBuffer α}
    (h : (scoreboard.restrict Tracks).Reaches (create (seqAt headSeq) maxBuffer dupAckThresh)
      es b) : CountersExact b :=
  (Consistent.reached h).countersExact

/-- Sacked, retransmitted and partly acknowledged data, across the wrap of the numbers. -/
theorem tcp_tx_buffer_counters_exact_across_wrap :
    CountersExact (scoreboard.exec (create (seqAt 4294967290) 100 3)
      [.add (List.range 20), .copyFromSequence 4 4294967290, .copyFromSequence 4 4294967294,
        .copyFromSequence 4 2, .copyFromSequence 8 6, .update [(2, 6)], .addRenoSack,
        .markHeadAsLost, .copyFromSequence 4 4294967290, .discardUpTo 4294967292,
        .discardUpTo 2, .setSentListLost false, .resetSentList, .copyFromSequence 5 2,
        .resetLastSegmentSent]) :=
  tcp_tx_buffer_counters_exact 4294967290 100 3 (Machine.Permits.reaches (by decide +kernel))

/-- After a timeout, half of the data is acknowledged and the window closes; the persist probe
sends one byte of the lost rest, and `ResetLastSegmentSent` takes that lost item out of the
sent list without a change to `m_lostOut`. -/
theorem probe_of_lost_data_miscounts :
    ∃ b : TcpTxBuffer ℕ, scoreboard.Reaches (create (seqAt 1000) 100 3)
        [.add [1, 2, 3, 4], .copyFromSequence 2 1000, .copyFromSequence 2 1002, .resetRenoSack,
          .setSentListLost true, .copyFromSequence 2 1000, .discardUpTo 1002,
          .copyFromSequence 1 1002, .resetLastSegmentSent] b ∧ ¬ CountersExact b :=
  ⟨_, Machine.Permits.reaches (by decide +kernel), fun h => absurd h.lostOut (by decide +kernel)⟩

end NetGymSim.Internet.TcpTxBuffer

/-!
## Bytes in flight

`pipe` is the estimate of RFC 6675 over the items. `BytesInFlight` works with the counters, which
hold the same sum and the retransmitted bytes that were sacked since.
-/

namespace NetGymSim.Internet.TcpTxBuffer
open Lib Network
variable {α : Type*} {items : List (TcpTxItem α)} {b : TcpTxBuffer α} {p : ℕ}

def bytesInFlight (b : TcpTxBuffer α) : ℕ :=
  let leftOut := add32 b.sackedOut.value b.lostOut.value
  add32 (sub32 b.sentSize.value leftOut) b.retrans.value

def inFlight (item : TcpTxItem α) : ℕ :=
  if item.sacked then 0
  else (if item.lost then 0 else item.size) + if item.retrans then item.size else 0

def pipe (items : List (TcpTxItem α)) : ℕ := (items.map inFlight).sum

section Pipe

@[simp] theorem pipe_nil : pipe ([] : List (TcpTxItem α)) = 0 := rfl

@[simp] theorem pipe_cons (item : TcpTxItem α) :
    pipe (item :: items) = inFlight item + pipe items := by
  simp [pipe]

theorem pipe_balance (h : Exclusive items) :
    bytes items + tally (·.retrans) items =
      pipe items + tally (fun item => item.sacked && item.retrans) items +
        (tally (·.sacked) items + tally (·.lost) items) := by
  induction items with
  | nil => rfl
  | cons item rest ih =>
    rw [Exclusive.cons_iff] at h
    have hrest := ih h.2
    have hitem : item.size + (if item.retrans then item.size else 0) =
        inFlight item + (if item.sacked && item.retrans then item.size else 0) +
          ((if item.sacked then item.size else 0) + if item.lost then item.size else 0) := by
      have hne := h.1
      rw [inFlight]
      cases hs : item.sacked <;> cases hl : item.lost <;> cases item.retrans <;>
        simp [hs, hl] at hne ⊢
    simp only [bytes_cons, tally_cons, pipe_cons]
    omega

theorem tally_eq_zero_iff (hf : Full items) (flag : TcpTxItem α → Bool) :
    tally flag items = 0 ↔ ∀ item ∈ items, flag item = false := by
  refine ⟨fun h item hi => ?_, tally_clear⟩
  obtain ⟨before, after, rfl⟩ := List.append_of_mem hi
  have hpos := hf.size_pos hi
  rw [tally_append, tally_cons] at h
  cases hflag : flag item with
  | false => rfl
  | true =>
    rw [if_pos hflag] at h
    omega

theorem tally_exclusive_le (h : Exclusive items) :
    tally (·.sacked) items + tally (·.lost) items ≤ bytes items := by
  induction items with
  | nil => simp
  | cons item rest ih =>
    rw [Exclusive.cons_iff] at h
    have hrest := ih h.2
    have hne := h.1
    rw [tally_cons, tally_cons, bytes_cons]
    split_ifs with hs hl
    · exact absurd ⟨hs, hl⟩ hne
    all_goals omega

theorem Consistent.bytesInFlight (h : Consistent b) :
    b.bytesInFlight =
      pipe b.sentList + tally (fun item => item.sacked && item.retrans) b.sentList := by
  have hsmall := h.small
  have hc := h.countersExact
  have hbalance := pipe_balance hc.exclusive
  have hleft := tally_exclusive_le hc.exclusive
  have hretrans := tally_le (·.retrans) b.sentList
  obtain ⟨p, hl⟩ := h.laid
  have hlaid := hl.small
  simp only [TcpTxBuffer.bytesInFlight, hc.sentSize, hc.sackedOut, hc.lostOut, hc.retrans,
    Counter.exactly_value]
  rw [add32_of_lt (hleft.trans_lt hsmall), sub32_of_le hsmall hleft, add32_of_lt (by omega)]
  omega

end Pipe

/-- In a run that keeps the counters exact: the two agree just when no retransmitted item that is
still in the list was sacked. -/
theorem bytes_in_flight_is_pipe_iff {α : Type*} (headSeq maxBuffer dupAckThresh : ℕ)
    {es : List (Operation α)} {b : TcpTxBuffer α}
    (h : (scoreboard.restrict Tracks).Reaches (create (seqAt headSeq) maxBuffer dupAckThresh)
      es b) :
    b.bytesInFlight = pipe b.sentList ↔
      ∀ item ∈ b.sentList, ¬(item.sacked = true ∧ item.retrans = true) := by
  have hb := Consistent.reached h
  obtain ⟨p, hl⟩ := hb.laid
  have hzero := tally_eq_zero_iff hl.fullSent fun item => item.sacked && item.retrans
  rw [hb.bytesInFlight, Nat.add_eq_left, hzero]
  apply forall₂_congr
  intro item _
  rw [Bool.and_eq_false_iff, ← Bool.not_eq_true, ← Bool.not_eq_true]
  tauto

/-- Two segments are lost and the first of them is sent again, across the wrap of the numbers. -/
theorem bytes_in_flight_is_pipe_iff_recovery :
    let b := scoreboard.exec (create (seqAt 4294967294) 100 3)
      [.add (List.range 6), .copyFromSequence 1 4294967294, .copyFromSequence 1 4294967295,
        .copyFromSequence 1 0, .copyFromSequence 1 1, .copyFromSequence 1 2,
        .update [(0, 3)], .copyFromSequence 1 4294967294]
    b.bytesInFlight = pipe b.sentList ↔
      ∀ item ∈ b.sentList, ¬(item.sacked = true ∧ item.retrans = true) :=
  bytes_in_flight_is_pipe_iff 4294967294 100 3 (Machine.Permits.reaches (by decide +kernel))

/-- Both lost segments are sent again; the second arrives and is sacked. -/
theorem sacked_retransmission_in_flight :
    ∃ b : TcpTxBuffer ℕ, scoreboard.Reaches (create (seqAt 1000) 100 3)
        [.add (List.range 6), .copyFromSequence 1 1000, .copyFromSequence 1 1001,
          .copyFromSequence 1 1002, .copyFromSequence 1 1003, .copyFromSequence 1 1004,
          .update [(1002, 1005)], .copyFromSequence 1 1000, .copyFromSequence 1 1001,
          .update [(1001, 1005)]] b ∧ ¬b.bytesInFlight = pipe b.sentList :=
  ⟨_, Machine.Permits.reaches (by decide +kernel), by decide +kernel⟩

end NetGymSim.Internet.TcpTxBuffer

import NetGymSim.Internet.TcpTxItems
import NetGymSim.Lib.Circular
import NetGymSim.Lib.Machine

/-!
# The byte stream in the transmit buffer

The bytes of the sent list followed by those of the application list are the stream from
the head on. `Laid` says where the items lie; every operation keeps it and drops bytes at
the head only. A request is served from the item found or made at its first byte, except
where it straddles the end of the sent data and passes the wrap of the sequence numbers.
-/

namespace NetGymSim.Internet.TcpTxBuffer
open Lib Network
variable {α : Type*} {b b' : TcpTxBuffer α} {p k n seq : ℕ}

def stored (b : TcpTxBuffer α) : List α := content b.sentList ++ content b.appList

structure Laid (p : ℕ) (b : TcpTxBuffer α) : Prop where
  first : b.firstByteSeq = seqAt p
  placed : Placed p b.sentList
  fullSent : Full b.sentList
  fullApp : Full b.appList
  size : b.size = .exactly (bytes b.sentList + bytes b.appList)
  sentSize : b.sentSize = .exactly (bytes b.sentList)
  small : bytes b.sentList + bytes b.appList < 2147483648

def frame (b : TcpTxBuffer α) : List (TcpTxItem α) × Counter × Counter × ℕ :=
  (b.appList, b.size, b.sentSize, b.firstByteSeq)

theorem stored_length (b : TcpTxBuffer α) :
    (stored b).length = bytes b.sentList + bytes b.appList := by
  simp [stored, content_length]

section Flags

theorem Laid.flags (h : Laid p b) (hs : shape b'.sentList = shape b.sentList)
    (hf : frame b' = frame b) : Laid p b' ∧ stored b' = stored b := by
  simp only [frame, Prod.mk.injEq] at hf
  obtain ⟨h1, h2, h3, h4⟩ := hf
  have hc := content_of_shape hs
  have hb := bytes_eq_of_content hc
  refine ⟨⟨?_, ?_, ?_, ?_, ?_, ?_, ?_⟩, ?_⟩
  · rw [h4, h.first]
  · exact h.placed.of_shape hs.symm
  · exact h.fullSent.of_shape hs.symm
  · rw [h1]
    exact h.fullApp
  · rw [h2, h1, hb, h.size]
  · rw [h3, hb, h.sentSize]
  · rw [h1, hb]
    exact h.small
  · simp only [stored, hc, h1]

theorem frame_addRenoSack (b : TcpTxBuffer α) : frame b.addRenoSack = frame b := by
  simp only [addRenoSack]
  cases b.sentList with
  | nil => rfl
  | cons head rest =>
    cases hr : (sackFirst rest).2 <;> simp [hr, frame]

theorem frame_markHeadAsLost (b : TcpTxBuffer α) : frame b.markHeadAsLost = frame b := by
  simp only [markHeadAsLost]
  cases b.sentList <;> rfl

theorem frame_deleteRetransmittedFlagFromHead (b : TcpTxBuffer α) :
    frame b.deleteRetransmittedFlagFromHead = frame b := by
  simp only [deleteRetransmittedFlagFromHead]
  split_ifs
  · rfl
  · cases b.sentList with
    | nil => rfl
    | cons head rest =>
      simp only
      split_ifs <;> rfl

theorem frame_unsackHead (b : TcpTxBuffer α) : frame b.unsackHead = frame b := by
  simp only [unsackHead]
  cases b.sentList with
  | nil => rfl
  | cons head rest =>
    by_cases hs : head.sacked
    · simp only [hs, if_true, frame_markHeadAsLost, frame_addRenoSack]
      rfl
    · simp [hs]

theorem frame_updateLostCount (b : TcpTxBuffer α) : frame b.updateLostCount = frame b := by
  simp only [updateLostCount]
  cases b.sentList <;> rfl

theorem frame_update (b : TcpTxBuffer α) (list : List (ℕ × ℕ)) :
    frame (b.update list).1 = frame b := by
  simp only [update]
  split_ifs
  · rw [frame_updateLostCount]
    rfl
  · rfl

theorem Laid.update (h : Laid p b) (list : List (ℕ × ℕ)) :
    Laid p (b.update list).1 ∧ stored (b.update list).1 = stored b :=
  h.flags (shape_update b list) (frame_update b list)

theorem Laid.unsackHead (h : Laid p b) :
    Laid p b.unsackHead ∧ stored b.unsackHead = stored b :=
  h.flags (shape_unsackHead b) (frame_unsackHead b)

theorem Laid.dropHighestSack (h : Laid p b) :
    Laid p b.dropHighestSack ∧ stored b.dropHighestSack = stored b := by
  simp only [TcpTxBuffer.dropHighestSack]
  split_ifs
  · exact h.flags rfl rfl
  · exact ⟨h, rfl⟩

end Flags

section Moves

theorem Laid.create (headSeq maxBuffer dupAckThresh : ℕ) :
    Laid headSeq (create (seqAt headSeq) maxBuffer dupAckThresh : TcpTxBuffer α) := by
  constructor <;> simp [TcpTxBuffer.create, Placed, Full]

theorem Laid.add (h : Laid p b) (d : List α)
    (hs : bytes b.sentList + bytes b.appList + d.length < 2147483648) :
    Laid p (b.add d).1 ∧ stored (b.add d).1 = stored b ++ (if (b.add d).2 then d else []) := by
  have hsize := h.size
  simp only [TcpTxBuffer.add]
  by_cases h1 : d.length ≤ b.available
  · by_cases h2 : 0 < d.length
    · simp only [h1, h2, if_true]
      refine ⟨⟨h.first, h.placed, h.fullSent, ?_, ?_, h.sentSize, ?_⟩, ?_⟩
      · simp only [Full.append_iff, Full.cons_iff]
        exact ⟨h.fullApp, List.ne_nil_of_length_pos h2, by simp [Full]⟩
      · simp only [bytes_append, bytes_cons, bytes_nil, TcpTxItem.size, Nat.add_zero]
        rw [hsize, Counter.exactly_add (by omega), Nat.add_assoc]
      · simp only [bytes_append, bytes_cons, bytes_nil, TcpTxItem.size, Nat.add_zero]
        omega
      · simp [stored]
    · have hnil : d = [] := List.eq_nil_of_length_eq_zero (by omega)
      simp only [h1, h2, if_true, if_false]
      exact ⟨h, by simp [hnil]⟩
  · simp only [h1, if_false]
    exact ⟨h, by simp⟩

theorem Laid.resetSentList (h : Laid p b) :
    Laid p b.resetSentList ∧ stored b.resetSentList = stored b := by
  set cleared := b.sentList.map fun item : TcpTxItem α =>
    { item with retrans := false, sacked := false, lost := false } with hcl
  have hshape : shape cleared = shape b.sentList := by
    simp [hcl, shape, Function.comp_def]
  have hc := content_of_shape hshape
  have hb := bytes_eq_of_content hc
  have hsize := h.size
  have hsmall := h.small
  have hfull := h.fullSent.of_shape hshape.symm
  refine ⟨⟨h.first, trivial, by simp [TcpTxBuffer.resetSentList, Full], ?_, ?_, ?_, ?_⟩, ?_⟩
  · simp only [TcpTxBuffer.resetSentList, ← hcl, Full.append_iff]
    exact ⟨hfull, h.fullApp⟩
  · simp only [TcpTxBuffer.resetSentList, ← hcl, bytes_append, bytes_nil, Nat.zero_add, hb]
    exact hsize
  · simp [TcpTxBuffer.resetSentList, h.sentSize]
  · simp only [TcpTxBuffer.resetSentList, ← hcl, bytes_append, bytes_nil, Nat.zero_add, hb]
    exact hsmall
  · simp [TcpTxBuffer.resetSentList, stored, ← hcl, hc]

theorem Laid.resetLastSegmentSent (h : Laid p b) :
    Laid p b.resetLastSegmentSent ∧ stored b.resetLastSegmentSent = stored b := by
  simp only [TcpTxBuffer.resetLastSegmentSent]
  cases hl : b.sentList.getLast? with
  | none => exact ⟨h, rfl⟩
  | some item =>
    have hsplit : b.sentList = b.sentList.dropLast ++ [item] :=
      (List.dropLast_append_getLast? item hl).symm
    have hplaced := h.placed
    have hfull := h.fullSent
    have hsize := h.size
    have hsent := h.sentSize
    have hsmall := h.small
    have hst : stored b = content b.sentList ++ content b.appList := rfl
    rw [hsplit] at hplaced hfull hsize hsent hsmall hst
    generalize b.sentList.dropLast = l at *
    simp only [placed_append, Full.append_iff, Full.cons_iff, bytes_append, bytes_cons, bytes_nil,
      Nat.add_zero] at hplaced hfull hsize hsent hsmall
    refine ⟨⟨h.first, hplaced.1, hfull.1, ?_, ?_, ?_, ?_⟩, ?_⟩
    · simp only [Full.cons_iff]
      exact ⟨hfull.2.1, h.fullApp⟩
    · simp only [bytes_cons]
      rw [hsize, Nat.add_assoc]
    · simp only
      rw [hsent, Counter.exactly_sub (by omega) (by omega), Nat.add_sub_cancel]
    · simp only [bytes_cons]
      omega
    · rw [hst]
      simp [stored]

end Moves

section Copy

structure Serves (b : TcpTxBuffer α) (p k n : ℕ) (b' : TcpTxBuffer α) (item : TcpTxItem α) :
    Prop where
  laid : Laid p b'
  kept : stored b' = stored b
  starts : item.startSeq = seqAt (p + k)
  nonempty : 1 ≤ item.size
  atMost : item.size ≤ n
  carries : item.packet = ((stored b).drop k).take item.size
  sent : item ∈ b'.sentList

theorem getNewSegment_spec (h : Laid p b) (hn : 0 < n) (hle : n ≤ bytes b.appList) :
    ∃ b' item, b.getNewSegment n = some (b', item) ∧
      Serves b p (bytes b.sentList) n b' item ∧ b'.sentList = b.sentList ++ [item] ∧
      item.size = n := by
  have hsmall := h.small
  have hend : seqAdd b.firstByteSeq b.sentSize.value = seqAt (p + bytes b.sentList) := by
    rw [h.first, h.sentSize, Counter.exactly_value, seqAdd_at]
  obtain ⟨f, hf, hb, hl⟩ := getPacketFromList_spec (p := p + bytes b.sentList) (k := 0) b.nodes
    b.appList b.retrans hn (by omega) (by omega) h.fullApp
  have hbefore := hb rfl
  have hsize : f.item.size = n := by
    have := congrArg List.length hl.packet
    rw [List.drop_zero, List.length_take, content_length, Nat.min_eq_left hle] at this
    exact this
  have hafter := hl.after
  have hpacket := hl.packet
  rw [Nat.zero_add] at hafter
  rw [List.drop_zero] at hpacket
  have hfull := hl.full h.fullApp
  rw [hbefore, List.nil_append, Full.cons_iff] at hfull
  have hrest : bytes f.after + n = bytes b.appList := by
    rw [← content_length, ← content_length, hafter, List.length_drop, content_length]
    omega
  rw [Nat.add_zero] at hf
  simp only [getNewSegment, hend, hf, Option.map_some, hbefore, List.nil_append]
  refine ⟨_, _, rfl, ⟨⟨h.first, ?_, ?_, hfull.2, ?_, ?_, ?_⟩, ?_, rfl, ?_, ?_, ?_, ?_⟩, rfl, hsize⟩
  · simp only [placed_append]
    exact ⟨h.placed, rfl, trivial⟩
  · simp only [Full.append_iff, Full.cons_iff]
    exact ⟨h.fullSent, hfull.1, by simp [Full]⟩
  · simp only [bytes_append, bytes_cons, bytes_nil, TcpTxItem.size] at hsize ⊢
    rw [h.size]
    congr 1
    omega
  · simp only [bytes_append, bytes_cons, bytes_nil, TcpTxItem.size] at hsize ⊢
    rw [h.sentSize, Counter.exactly_add (by omega), hsize, Nat.add_zero]
  · simp only [bytes_append, bytes_cons, bytes_nil, TcpTxItem.size] at hsize ⊢
    omega
  · simp only [stored, content_append, content_cons, content_nil, List.append_nil,
      List.append_assoc, hafter, hpacket, List.take_append_drop]
  · simp only [TcpTxItem.size] at hsize ⊢
    omega
  · simp only [TcpTxItem.size] at hsize ⊢
    omega
  · simp only [TcpTxItem.size] at hsize ⊢
    rw [hsize, hpacket, stored, List.drop_append, List.drop_of_length_le (by rw [content_length]),
      content_length, Nat.sub_self, List.drop_zero, List.nil_append]
  · simp

theorem mergeLimit_spec (seq : ℕ) (hs : 0 < n) {items : List (TcpTxItem α)} (hf : Full items)
    (hsmall : bytes items < 2147483648) :
    0 < mergeLimit seq items n ∧ mergeLimit seq items n ≤ n := by
  induction items with
  | nil => exact ⟨hs, le_rfl⟩
  | cons item rest ih =>
    have hpos := hf.size_pos List.mem_cons_self
    rw [Full.cons_iff] at hf
    rw [bytes_cons] at hsmall
    simp only [mergeLimit]
    split_ifs
    · cases rest with
      | nil =>
        simp only
        omega
      | cons next rest =>
        rw [bytes_cons] at hsmall
        simp only [add32_of_lt (show item.size + next.size < 4294967296 by omega)]
        split_ifs <;> omega
    · exact ih hf.2 (by omega)

theorem getTransmittedSegment_spec (h : Laid p b) (hn : 0 < n) (hle : k + n ≤ bytes b.sentList) :
    ∃ b' item, b.getTransmittedSegment n (seqAt (p + k)) = some (b', item) ∧
      Serves b p k n b' item := by
  have hsmall := h.small
  obtain ⟨hs1, hs2⟩ := mergeLimit_spec (seqAt (p + k)) hn h.fullSent (by omega)
  simp only [getTransmittedSegment]
  generalize mergeLimit (seqAt (p + k)) b.sentList n = s at hs1 hs2
  obtain ⟨f, hf, -, hl⟩ := getPacketFromList_spec (p := p) b.nodes b.sentList b.retrans hs1
    (show k + s ≤ bytes b.sentList by omega) (by omega) h.fullSent
  have hlen := content_length b.sentList
  have hsize : f.item.size = s := by
    have := congrArg List.length hl.packet
    rw [List.length_take, List.length_drop, hlen, Nat.min_eq_left (by omega)] at this
    exact this
  have hbytes : bytes f.before = k := by
    rw [← content_length, hl.before, List.length_take, hlen]
    omega
  have hcontent : content f.before ++ f.item.packet ++ content f.after = content b.sentList := by
    rw [hl.before, hl.packet, hl.after, ← List.drop_drop, List.append_assoc, List.take_append_drop,
      List.take_append_drop]
  have hplaced := hl.placed h.placed
  have hfull := hl.full h.fullSent
  have hsum : bytes f.before + (f.item.size + bytes f.after) = bytes b.sentList := by
    rw [← hlen, ← hcontent]
    simp [content_length, TcpTxItem.size]
  rw [h.first, hf, Option.map_some]
  have hshape : shape (f.before ++ { f.item with retrans := true } :: f.after) =
      shape (f.before ++ f.item :: f.after) := by
    simp [shape_append, shape_cons]
  have hb : bytes (f.before ++ { f.item with retrans := true } :: f.after) =
      bytes b.sentList := by
    rw [← hsum]
    simp [TcpTxItem.size]
  refine ⟨_, _, rfl, ⟨⟨rfl, hplaced.of_shape hshape.symm, hfull.of_shape hshape.symm,
    h.fullApp, ?_, ?_, ?_⟩, ?_, ?_, ?_, ?_, ?_, ?_⟩⟩
  · simp only [hb, h.size]
  · simp only [hb, h.sentSize]
  · simp only [hb]
    exact h.small
  · simp only [stored, content_of_shape hshape, content_append, content_cons]
    rw [← hcontent]
    simp
  · rw [placed_append] at hplaced
    simp only [hplaced.2.1, hbytes]
  · simp only [TcpTxItem.size] at hsize ⊢
    omega
  · simp only [TcpTxItem.size] at hsize ⊢
    omega
  · simp only [TcpTxItem.size] at hsize ⊢
    rw [hsize, hl.packet, stored, List.drop_append, List.take_append_of_le_length]
    rw [List.length_drop, hlen]
    omega
  · simp

def sentFrom (b : TcpTxBuffer α) (seq : ℕ) : ℕ :=
  forward 4294967296 (seqAdd b.firstByteSeq b.sentSize.value) seq

/-- The request begins in sent data, ends in unsent data and passes the wrap of the numbers. -/
def StraddlesWrap (b : TcpTxBuffer α) (n seq : ℕ) : Prop :=
  0 < b.sentFrom seq ∧ b.sentFrom seq < min n (b.sizeFromSequence seq) ∧
    4294967296 ≤ seq + min n (b.sizeFromSequence seq)

instance (b : TcpTxBuffer α) (n seq : ℕ) : Decidable (b.StraddlesWrap n seq) :=
  inferInstanceAs (Decidable (_ ∧ _))

theorem Laid.tail (h : Laid p b) :
    b.tailSequence = seqAt (p + (bytes b.sentList + bytes b.appList)) := by
  rw [tailSequence, h.first, h.size, Counter.exactly_value, seqAdd_at]

theorem Laid.endOfSent (h : Laid p b) :
    seqAdd b.firstByteSeq b.sentSize.value = seqAt (p + bytes b.sentList) := by
  rw [h.first, h.sentSize, Counter.exactly_value, seqAdd_at]

theorem Laid.sizeFromSequence (h : Laid p b) (hk : k ≤ bytes b.sentList + bytes b.appList) :
    b.sizeFromSequence (seqAt (p + k)) = bytes b.sentList + bytes b.appList - k := by
  have hsmall := h.small
  have hnear : Near (p + (bytes b.sentList + bytes b.appList)) (p + k) := ⟨by omega, by omega⟩
  have hge : seqGe (seqAt (p + (bytes b.sentList + bytes b.appList))) (seqAt (p + k)) := by
    rw [seqGe_at hnear]
    omega
  simp only [TcpTxBuffer.sizeFromSequence, h.tail, hge, if_true, seqSub_at hnear]
  omega

theorem Laid.sentFrom (h : Laid p b) (hk : k ≤ bytes b.sentList) :
    b.sentFrom (seqAt (p + k)) = bytes b.sentList - k := by
  have hsmall := h.small
  rw [TcpTxBuffer.sentFrom, h.endOfSent]
  have hd : bytes b.sentList - k < 4294967296 := by omega
  have := forward_residue (p + k) hd
  rwa [show p + k + (bytes b.sentList - k) = p + bytes b.sentList by omega] at this

theorem Serves.mono {m : ℕ} {item : TcpTxItem α} (h : Serves b p k n b' item) (hm : n ≤ m) :
    Serves b p k m b' item := { h with atMost := h.atMost.trans hm }

theorem copyFrom_sent (h : Laid p b) (calls : ℕ) (hn : 0 < n) (hk : k < bytes b.sentList)
    (hle : k + min n (bytes b.sentList + bytes b.appList - k) ≤ bytes b.sentList) :
    ∃ b' item, copyFrom (calls + 1) b n (seqAt (p + k)) = some (b', some item) ∧
      Serves b p k n b' item := by
  have hsmall := h.small
  have hnear : Near p (p + k) := ⟨by omega, by omega⟩
  have hok : ¬ seqGt b.firstByteSeq (seqAt (p + k)) := by
    rw [h.first, seqGt_at hnear]
    omega
  simp only [copyFrom, hok, if_false, h.sizeFromSequence (show k ≤ _ by omega), h.endOfSent,
    seqAdd_at]
  set s := min n (bytes b.sentList + bytes b.appList - k) with hs
  have hpos : s ≠ 0 := by omega
  have hnear' : Near (p + bytes b.sentList) (p + k + s) := ⟨by omega, by omega⟩
  have hge : seqGe (seqAt (p + bytes b.sentList)) (seqAt (p + k + s)) := by
    rw [seqGe_at hnear']
    omega
  obtain ⟨b', item, hb, hserves⟩ := getTransmittedSegment_spec h (k := k)
    (Nat.pos_of_ne_zero hpos) hle
  simp only [hpos, hge, if_true, if_false, hb, Option.map_some]
  exact ⟨b', item, rfl, hserves.mono (by omega)⟩

/-- Every request from a byte of the buffer that is not behind unsent data is served, but for
those that straddle the end of the sent data across the wrap, where a null pointer is followed. -/
theorem copyFromSequence_spec (h : Laid p b) (hn : 0 < n)
    (hk : k < bytes b.sentList + bytes b.appList) (hgap : k ≤ bytes b.sentList) :
    if b.StraddlesWrap n (seqAt (p + k)) then b.copyFromSequence n (seqAt (p + k)) = none
    else ∃ b' item, b.copyFromSequence n (seqAt (p + k)) = some (b', some item) ∧
      Serves b p k n b' item := by
  have hsmall := h.small
  have hnear : Near p (p + k) := ⟨by omega, by omega⟩
  have hok : ¬ seqGt b.firstByteSeq (seqAt (p + k)) := by
    rw [h.first, seqGt_at hnear]
    omega
  have hsize := h.sizeFromSequence (show k ≤ _ by omega)
  have hfrom := h.sentFrom hgap
  simp only [StraddlesWrap, hfrom, hsize]
  by_cases hin : k < bytes b.sentList ∧
      k + min n (bytes b.sentList + bytes b.appList - k) ≤ bytes b.sentList
  · have hno : ¬ (0 < bytes b.sentList - k ∧
        bytes b.sentList - k < min n (bytes b.sentList + bytes b.appList - k) ∧
        4294967296 ≤ seqAt (p + k) + min n (bytes b.sentList + bytes b.appList - k)) := by omega
    rw [if_neg hno]
    exact copyFrom_sent h _ hn hin.1 hin.2
  · rw [copyFromSequence, show 2 = 1 + 1 from rfl, copyFrom]
    simp only [hok, if_false, hsize, h.endOfSent, seqAdd_at]
    set s := min n (bytes b.sentList + bytes b.appList - k) with hs
    have hpos : s ≠ 0 := by omega
    have hnear₁ : Near (p + bytes b.sentList) (p + k + s) := ⟨by omega, by omega⟩
    have hnear₂ : Near (p + bytes b.sentList) (p + k) := ⟨by omega, by omega⟩
    have hge : ¬ seqGe (seqAt (p + bytes b.sentList)) (seqAt (p + k + s)) := by
      rw [seqGe_at hnear₁]
      omega
    simp only [hpos, hge, if_false, seqLe_at hnear₂, seqAt_inj hnear₂]
    by_cases hend : k = bytes b.sentList
    · -- new data
      obtain ⟨b', item, hb, hserves, -⟩ := getNewSegment_spec h (Nat.pos_of_ne_zero hpos)
        (by omega)
      have hno : ¬ (0 < bytes b.sentList - k ∧ bytes b.sentList - k < s ∧
          4294967296 ≤ seqAt (p + k) + s) := by omega
      rw [if_neg hno]
      simp only [hend, le_refl, if_true, hb, Option.map_some]
      exact ⟨b', item, rfl, hserves.mono (by omega)⟩
    · have hlt : k < bytes b.sentList := by omega
      have hle : ¬ p + bytes b.sentList ≤ p + k := by omega
      simp only [hle, if_false]
      -- the plain comparison of the source
      have hraw : (seqAt (p + k) < seqAt (p + bytes b.sentList) ∧
          seqAt (p + bytes b.sentList) < add32 (seqAt (p + k)) s) ↔
          seqAt (p + k) + s < 4294967296 := by
        simp only [seqAt, add32]
        omega
      by_cases hwrap : seqAt (p + k) + s < 4294967296
      · have hno : ¬ (0 < bytes b.sentList - k ∧ bytes b.sentList - k < s ∧
            4294967296 ≤ seqAt (p + k) + s) := by omega
        simp only [if_neg hno, hraw.mpr hwrap, and_self, if_true]
        have hamount : sub32 (seqAt (p + bytes b.sentList)) (seqAt (p + k)) =
            bytes b.sentList - k := by
          simp only [sub32, seqAt]
          omega
        rw [hamount]
        obtain ⟨b', item, hb, hserves⟩ := copyFrom_sent h 0 (n := bytes b.sentList - k) (k := k)
          (by omega) hlt (by omega)
        exact ⟨b', item, hb, hserves.mono (by omega)⟩
      · have hyes : 0 < bytes b.sentList - k ∧ bytes b.sentList - k < s ∧
            4294967296 ≤ seqAt (p + k) + s := ⟨by omega, by omega, by omega⟩
        rw [if_pos hyes, if_neg (mt hraw.mp hwrap)]

theorem Laid.sizeFromSequence_zero (h : Laid p b) (hk : k < 4294967296)
    (hle : bytes b.sentList + bytes b.appList ≤ k)
    (hok : ¬ seqGt b.firstByteSeq (seqAt (p + k))) : b.sizeFromSequence (seqAt (p + k)) = 0 := by
  have hsmall := h.small
  rcases Nat.eq_or_lt_of_le hle with heq | hlt
  · rw [h.sizeFromSequence (by omega)]
    omega
  · have hge : ¬ seqGe (seqAt (p + (bytes b.sentList + bytes b.appList))) (seqAt (p + k)) := by
      rw [h.first] at hok
      simp only [seqGe, seqGt, seqAt] at hok ⊢
      omega
    simp only [TcpTxBuffer.sizeFromSequence, h.tail, hge, if_false]

theorem copyFrom_cases (h : Laid p b) {calls : ℕ} (hseq : seq < 4294967296)
    {r : Option (TcpTxItem α)} (hc : copyFrom calls b n seq = some (b', r)) :
    b' = b ∨ ∃ k s item, seq = seqAt (p + k) ∧ 0 < s ∧ s ≤ n ∧
      ((k + s ≤ bytes b.sentList ∧ b.getTransmittedSegment s seq = some (b', item)) ∨
        (k = bytes b.sentList ∧ s ≤ bytes b.appList ∧ b.getNewSegment s = some (b', item))) := by
  have hsmall := h.small
  induction calls generalizing n r with
  | zero => cases hc
  | succ calls ih =>
    obtain ⟨k, hk, rfl⟩ : ∃ k < 4294967296, seq = seqAt (p + k) :=
      ⟨forward 4294967296 seq (p % 4294967296), forward_lt (by omega) _ _,
        (residue_forward p hseq).symm⟩
    rw [copyFrom] at hc
    by_cases hok : seqGt b.firstByteSeq (seqAt (p + k))
    · simp only [hok, if_true] at hc
      cases hc
    · simp only [hok, if_false] at hc
      by_cases hs : min n (b.sizeFromSequence (seqAt (p + k))) = 0
      · rw [if_pos hs] at hc
        cases hc
        exact .inl rfl
      · have hin : k < bytes b.sentList + bytes b.appList := by
          by_contra hout
          rw [h.sizeFromSequence_zero hk (by omega) hok] at hs
          omega
        have hsize := h.sizeFromSequence (Nat.le_of_lt hin)
        simp only [h.endOfSent, seqAdd_at, hsize] at hc
        rw [hsize] at hs
        set s := min n (bytes b.sentList + bytes b.appList - k) with hsdef
        have hnear₁ : Near (p + bytes b.sentList) (p + k + s) := ⟨by omega, by omega⟩
        have hnear₂ : Near (p + bytes b.sentList) (p + k) := ⟨by omega, by omega⟩
        simp only [seqGe_at hnear₁, seqLe_at hnear₂, seqAt_inj hnear₂] at hc
        rw [if_neg hs] at hc
        split_ifs at hc with hsent hnew hend hraw
        · -- sent data
          obtain ⟨⟨b₁, item⟩, hg, heq⟩ := Option.map_eq_some_iff.mp hc
          cases heq
          exact .inr ⟨k, s, item, rfl, by omega, by omega, .inl ⟨by omega, hg⟩⟩
        · -- new data
          obtain ⟨⟨b₁, item⟩, hg, heq⟩ := Option.map_eq_some_iff.mp hc
          cases heq
          exact .inr ⟨k, s, item, rfl, by omega, by omega, .inr ⟨by omega, by omega, hg⟩⟩
        · -- the sent part is asked for again
          have hle : sub32 (seqAt (p + bytes b.sentList)) (seqAt (p + k)) ≤ n := by
            simp only [sub32, add32, seqAt] at hraw ⊢
            omega
          rcases ih hc with hb | ⟨k', s', item, h1, h2, h3, h4⟩
          · exact .inl hb
          · exact .inr ⟨k', s', item, h1, h2, h3.trans hle, h4⟩

theorem Laid.copyFromSequence (h : Laid p b) (hseq : seq < 4294967296)
    {r : Option (TcpTxItem α)} (hc : b.copyFromSequence n seq = some (b', r)) :
    Laid p b' ∧ stored b' = stored b := by
  rcases copyFrom_cases h hseq hc with rfl | ⟨k, s, item, rfl, hpos, -, ⟨hle, hg⟩ | ⟨-, hle, hg⟩⟩
  · exact ⟨h, rfl⟩
  · obtain ⟨b₁, item₁, hb₁, hserves⟩ := getTransmittedSegment_spec h hpos hle
    rw [hb₁] at hg
    cases hg
    exact ⟨hserves.laid, hserves.kept⟩
  · obtain ⟨b₁, item₁, hb₁, hserves, -⟩ := getNewSegment_spec h hpos hle
    rw [hb₁] at hg
    cases hg
    exact ⟨hserves.laid, hserves.kept⟩

end Copy

section Discard

theorem Laid.discardItem (h : Laid p b) {item : TcpTxItem α} {rest : List (TcpTxItem α)}
    (hs : b.sentList = item :: rest) :
    Laid (p + item.size) (b.discardItem item rest) ∧
      stored (b.discardItem item rest) = (stored b).drop item.size := by
  have hplaced := h.placed
  have hfull := h.fullSent
  have hsize := h.size
  have hsent := h.sentSize
  have hsmall := h.small
  rw [hs] at hplaced hfull hsize hsent hsmall
  rw [Full.cons_iff] at hfull
  rw [bytes_cons] at hsize hsent hsmall
  refine ⟨⟨?_, hplaced.2, hfull.2, h.fullApp, ?_, ?_, ?_⟩, ?_⟩
  · simp only [TcpTxBuffer.discardItem, removeFromCounts, h.first, seqAdd_at]
  · simp only [TcpTxBuffer.discardItem, removeFromCounts, hsize]
    rw [Counter.exactly_sub (by omega) (by omega), Nat.add_assoc, Nat.add_sub_cancel_left]
  · simp only [TcpTxBuffer.discardItem, removeFromCounts, hsent]
    rw [Counter.exactly_sub (by omega) (by omega), Nat.add_sub_cancel_left]
  · simp only [TcpTxBuffer.discardItem, removeFromCounts]
    omega
  · simp only [TcpTxBuffer.discardItem, removeFromCounts, stored, hs, content_cons,
      TcpTxItem.size, List.append_assoc, List.drop_left]

theorem Laid.discardPart (h : Laid p b) {item : TcpTxItem α} {rest : List (TcpTxItem α)} {m : ℕ}
    (hs : b.sentList = item :: rest) (hm : m < item.size) :
    Laid (p + m) (b.discardPart item rest m) ∧
      stored (b.discardPart item rest m) = (stored b).drop m := by
  have hplaced := h.placed
  have hfull := h.fullSent
  have hsize := h.size
  have hsent := h.sentSize
  have hsmall := h.small
  have hlen : m < item.packet.length := hm
  rw [hs] at hplaced hfull hsize hsent hsmall
  rw [Full.cons_iff] at hfull
  rw [bytes_cons] at hsize hsent hsmall
  have hcut : TcpTxItem.size { item with
      packet := item.packet.drop m
      startSeq := seqAdd item.startSeq m } = item.size - m := by
    simp [TcpTxItem.size]
  refine ⟨⟨?_, ⟨?_, ?_⟩, ?_, h.fullApp, ?_, ?_, ?_⟩, ?_⟩
  · simp only [TcpTxBuffer.discardPart, removeFromCounts, h.first, seqAdd_at]
  · simp only [hplaced.1, seqAdd_at]
  · rw [hcut, show p + m + (item.size - m) = p + item.size by omega]
    exact hplaced.2
  · simp only [TcpTxBuffer.discardPart, removeFromCounts, Full.cons_iff]
    refine ⟨?_, hfull.2⟩
    apply List.ne_nil_of_length_pos
    rw [List.length_drop]
    omega
  · simp only [TcpTxBuffer.discardPart, removeFromCounts, hsize, bytes_cons, hcut]
    rw [Counter.exactly_sub (by omega) (by omega)]
    congr 1
    omega
  · simp only [TcpTxBuffer.discardPart, removeFromCounts, hsent, bytes_cons, hcut]
    rw [Counter.exactly_sub (by omega) (by omega)]
    congr 1
    omega
  · simp only [TcpTxBuffer.discardPart, removeFromCounts, bytes_cons, hcut]
    omega
  · simp only [TcpTxBuffer.discardPart, removeFromCounts, stored, hs, content_cons,
      List.append_assoc]
    rw [List.drop_append_of_le_length (Nat.le_of_lt hlen)]

theorem discardLoop_rule {P : ℕ → TcpTxBuffer α → Prop}
    (copy : ∀ b b' item offset, P offset b → b.sentList = [] → 0 < offset → 0 < b.size.value →
      b.copyFromSequence offset b.firstByteSeq = some (b', some item) → P offset b')
    (drop : ∀ b item rest offset, P offset b → b.sentList = item :: rest → item.size ≤ offset →
      P (offset - item.size) (b.discardItem item rest))
    (cut : ∀ b item rest offset, P offset b → b.sentList = item :: rest → offset < item.size →
      P 0 (b.discardPart item rest offset))
    {turns offset : ℕ} (h : P offset b) (hr : discardLoop turns b offset = some b') :
    ∃ left, P left b' ∧ (left = 0 ∨ b'.size.value = 0) := by
  induction turns generalizing b offset with
  | zero => cases hr
  | succ turns ih =>
    simp only [discardLoop] at hr
    by_cases hgo : 0 < b.size.value ∧ 0 < offset
    · rw [if_pos hgo] at hr
      cases hm : b.moveToSent offset with
      | none =>
        rw [hm] at hr
        cases hr
      | some b₁ =>
        rw [hm] at hr
        have h₁ : P offset b₁ := by
          cases hs : b.sentList with
          | nil =>
            simp only [moveToSent, hs] at hm
            split at hm
            · cases hm
              exact copy _ _ _ _ h hs hgo.2 hgo.1 ‹_›
            · cases hm
          | cons item rest =>
            simp only [moveToSent, hs, Option.some.injEq] at hm
            rwa [← hm]
        cases hs : b₁.sentList with
        | nil =>
          simp only [hs] at hr
          cases hr
        | cons item rest =>
          simp only [hs] at hr
          by_cases hle : item.size ≤ offset
          · rw [if_pos hle] at hr
            exact ih (drop _ _ _ _ h₁ hs hle) hr
          · rw [if_neg hle, Option.some.injEq] at hr
            exact ⟨0, hr ▸ cut _ _ _ _ h₁ hs (by omega), .inl rfl⟩
    · rw [if_neg hgo, Option.some.injEq] at hr
      subst hr
      exact ⟨offset, h, by omega⟩

theorem Laid.moveToSent (h : Laid p b) {offset : ℕ} (h1 : 0 < b.size.value) (h2 : 0 < offset) :
    ∃ b' item rest, b.moveToSent offset = some b' ∧ Laid p b' ∧ b'.sentList = item :: rest ∧
      (b.sentList = [] → rest = [] ∧ (item.size = offset ∨ b'.appList = [])) ∧
      (b.sentList ≠ [] → b' = b) := by
  have hsmall := h.small
  cases hs : b.sentList with
  | cons item rest =>
    exact ⟨b, item, rest, by simp [TcpTxBuffer.moveToSent, hs], h, hs, by simp, by simp⟩
  | nil =>
    have hz : bytes b.sentList = 0 := by rw [hs, bytes_nil]
    rw [h.size, Counter.exactly_value, hz, Nat.zero_add] at h1
    rw [hz, Nat.zero_add] at hsmall
    have hsize := h.sizeFromSequence (show 0 ≤ _ by omega)
    have hnear : Near p p := ⟨by omega, by omega⟩
    have hok : ¬ seqGt b.firstByteSeq (seqAt p) := by
      rw [h.first, seqGt_at hnear]
      omega
    have hend := h.endOfSent
    rw [hz, Nat.add_zero] at hend
    rw [hz, Nat.zero_add, Nat.add_zero, Nat.sub_zero] at hsize
    set s := min offset (bytes b.appList) with hsd
    have hpos : 0 < s := by omega
    obtain ⟨b', item, hb, hserves, hlist, hitem⟩ := getNewSegment_spec h hpos (by omega)
    have hnear' : Near p (p + s) := ⟨by omega, by omega⟩
    have hge : ¬ seqGe (seqAt p) (seqAt (p + s)) := by
      rw [seqGe_at hnear']
      omega
    have hcopy : b.copyFromSequence offset b.firstByteSeq = some (b', some item) := by
      rw [TcpTxBuffer.copyFromSequence, show 2 = 1 + 1 from rfl, copyFrom, hend, h.first]
      rw [h.first] at hok
      simp only [hok, if_false, hsize, ← hsd, Nat.pos_iff_ne_zero.mp hpos, seqAdd_at, hge,
        seqLe_at hnear, le_refl, if_true, hb, Option.map_some]
    rw [hs, List.nil_append] at hlist
    refine ⟨b', item, [], ?_, hserves.laid, hlist, ?_, by simp⟩
    · simp only [TcpTxBuffer.moveToSent, hs, hcopy]
    · intro _
      refine ⟨rfl, ?_⟩
      by_cases hle : offset ≤ bytes b.appList
      · left
        omega
      · right
        apply hserves.laid.fullApp.eq_nil
        have hkept := congrArg List.length hserves.kept
        rw [stored_length, stored_length, hlist, hz, bytes_cons, bytes_nil] at hkept
        omega

theorem discardLoop_total (turns : ℕ) {offset : ℕ} (h : Laid p b)
    (hm : b.sentList.length + (if b.appList = [] then 0 else 1) < turns ∨
      (offset = 0 ∧ 0 < turns)) : ∃ b', discardLoop turns b offset = some b' := by
  induction turns generalizing b p offset with
  | zero => omega
  | succ turns ih =>
    simp only [discardLoop]
    by_cases hgo : 0 < b.size.value ∧ 0 < offset
    · rw [if_pos hgo]
      obtain ⟨b₁, item, rest, h1, h2, h3, h4, h5⟩ := h.moveToSent hgo.1 hgo.2
      simp only [h1, h3]
      by_cases hle : item.size ≤ offset
      · rw [if_pos hle]
        apply ih (h2.discardItem h3).1
        by_cases hnil : b.sentList = []
        · obtain ⟨hrest, hcase⟩ := h4 hnil
          have happ : b.appList ≠ [] := by
            intro happ
            have := h.size
            rw [hnil, happ] at this
            rw [this] at hgo
            simp at hgo
          rw [hnil, if_neg happ] at hm
          rcases hcase with hc | hc
          · right
            simp only [List.length_nil] at hm
            omega
          · left
            simp only [TcpTxBuffer.discardItem, removeFromCounts, hrest, hc, if_true,
              List.length_nil] at hm ⊢
            omega
        · rw [h5 hnil] at h3 ⊢
          rw [h3, List.length_cons] at hm
          left
          simp only [TcpTxBuffer.discardItem, removeFromCounts]
          omega
      · rw [if_neg hle]
        exact ⟨_, rfl⟩
    · rw [if_neg hgo]
      exact ⟨b, rfl⟩

theorem Laid.restart (h : Laid p b) (h0 : b.size.value = 0) (q : ℕ) :
    Laid q { b with firstByteSeq := seqAt q } ∧ stored b = [] := by
  rw [h.size, Counter.exactly_value] at h0
  have hsent := h.fullSent.eq_nil (by omega)
  have happ := h.fullApp.eq_nil (by omega)
  refine ⟨⟨rfl, ?_, h.fullSent, h.fullApp, h.size, h.sentSize, h.small⟩, ?_⟩
  · simp only [hsent]
    trivial
  · simp [stored, hsent, happ]

def discards (b : TcpTxBuffer α) (seq : ℕ) : ℕ :=
  if seqGe b.firstByteSeq seq then 0 else forward 4294967296 seq b.firstByteSeq

theorem Laid.discardUpTo (h : Laid p b) (hseq : seq < 4294967296) :
    ∃ b', b.discardUpTo seq = some b' ∧ Laid (p + b.discards seq) b' ∧
      stored b' = (stored b).drop (b.discards seq) := by
  simp only [TcpTxBuffer.discardUpTo, discards]
  by_cases hold : seqGe b.firstByteSeq seq
  · rw [if_pos hold, if_pos hold]
    exact ⟨b, rfl, h, rfl⟩
  · rw [if_neg hold, if_neg hold]
    obtain ⟨k, hk, rfl⟩ : ∃ k < 4294967296, seq = seqAt (p + k) :=
      ⟨forward 4294967296 seq (p % 4294967296), forward_lt (by omega) _ _,
        (residue_forward p hseq).symm⟩
    have hd : forward 4294967296 (seqAt (p + k)) b.firstByteSeq = k := by
      rw [h.first]
      exact forward_residue p hk
    have hoff : (seqSub (seqAt (p + k)) b.firstByteSeq % 4294967296).toNat = k := by
      rw [h.first]
      exact seqSub_word p hk
    rw [hd, hoff]
    obtain ⟨b₁, hloop⟩ := discardLoop_total (b.sentList.length + 2) h (by
      left
      split_ifs <;> omega)
    rw [hloop, Option.map_some]
    have hstart : ∃ done, k + done = k ∧ Laid (p + done) b ∧ stored b = (stored b).drop done :=
      ⟨0, rfl, h, rfl⟩
    obtain ⟨left, ⟨done, hdone, hl, hst⟩, hcase⟩ := discardLoop_rule
      (P := fun left b' => ∃ done, left + done = k ∧ Laid (p + done) b' ∧
        stored b' = (stored b).drop done) (by
        intro b' b'' item offset ⟨done, h1, h2, h3⟩ _ _ _ hc
        obtain ⟨h4, h5⟩ := h2.copyFromSequence (by rw [h2.first]; exact Nat.mod_lt _ (by omega)) hc
        exact ⟨done, h1, h4, h5.trans h3⟩) (by
        intro b' item rest offset ⟨done, h1, h2, h3⟩ hs hle
        obtain ⟨h4, h5⟩ := h2.discardItem hs
        rw [Nat.add_assoc] at h4
        exact ⟨done + item.size, by omega, h4, by rw [h5, h3, List.drop_drop]⟩) (by
        intro b' item rest offset ⟨done, h1, h2, h3⟩ hs hlt
        obtain ⟨h4, h5⟩ := h2.discardPart hs hlt
        rw [Nat.add_assoc] at h4
        exact ⟨done + offset, by omega, h4, by rw [h5, h3, List.drop_drop]⟩) hstart hloop
    have hend : Laid (p + k) (b₁.followEmpty (seqAt (p + k))) ∧
        stored (b₁.followEmpty (seqAt (p + k))) = (stored b).drop k := by
      by_cases h0 : b₁.size.value = 0
      · obtain ⟨hlaid, hempty⟩ := hl.restart h0 (p + k)
        rw [hempty] at hst
        have hlen := congrArg List.length hst
        rw [List.length_drop, List.length_nil] at hlen
        rw [followEmpty, if_pos h0, List.drop_of_length_le (by omega)]
        exact ⟨hlaid, hempty⟩
      · obtain rfl : left = 0 := by omega
        obtain rfl : done = k := by omega
        rw [followEmpty, if_neg h0]
        exact ⟨hl, hst⟩
    obtain ⟨h1, h2⟩ := hend
    obtain ⟨h3, h4⟩ := h1.unsackHead
    obtain ⟨h5, h6⟩ := h3.dropHighestSack
    exact ⟨_, rfl, h5, h6.trans (h4.trans h2)⟩

end Discard
end NetGymSim.Internet.TcpTxBuffer

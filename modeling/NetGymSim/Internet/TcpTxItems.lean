import NetGymSim.Internet.TcpTxBuffer
import Mathlib.Data.List.Basic
import Mathlib.Algebra.Order.Ring.Nat

/-!
# The items of the transmit buffer

The bytes of a list of items, their number, and the places of the items in the stream.
The search for a packet cuts the bytes at the requested bounds and keeps the rest; the
operations on flags keep all places and bytes.
-/

namespace NetGymSim.Internet.TcpTxBuffer
open Lib Network
variable {α : Type*} {items : List (TcpTxItem α)}

def content (items : List (TcpTxItem α)) : List α := items.flatMap fun item => item.packet

def bytes (items : List (TcpTxItem α)) : ℕ := (items.map fun item => item.size).sum

def Placed : ℕ → List (TcpTxItem α) → Prop
  | _, [] => True
  | p, item :: rest => item.startSeq = seqAt p ∧ Placed (p + item.size) rest

def Full (items : List (TcpTxItem α)) : Prop := ∀ item ∈ items, item.packet ≠ []

def shape (items : List (TcpTxItem α)) : List (ℕ × List α) :=
  items.map fun item => (item.startSeq, item.packet)

section Lists
variable {item : TcpTxItem α} {l : List (TcpTxItem α)} {p : ℕ}

@[simp] theorem content_nil : content ([] : List (TcpTxItem α)) = [] := rfl

@[simp] theorem content_cons : content (item :: l) = item.packet ++ content l := rfl

@[simp] theorem content_append : content (items ++ l) = content items ++ content l := by
  simp [content]

@[simp] theorem bytes_nil : bytes ([] : List (TcpTxItem α)) = 0 := rfl

@[simp] theorem bytes_cons : bytes (item :: l) = item.size + bytes l := by simp [bytes]

@[simp] theorem bytes_append : bytes (items ++ l) = bytes items + bytes l := by simp [bytes]

theorem content_length (items : List (TcpTxItem α)) : (content items).length = bytes items := by
  induction items with
  | nil => rfl
  | cons item rest ih => simp [ih, TcpTxItem.size]

theorem bytes_eq_of_content (h : content items = content l) : bytes items = bytes l := by
  rw [← content_length, h, content_length]

@[simp] theorem Full.cons_iff : Full (item :: l) ↔ item.packet ≠ [] ∧ Full l := by simp [Full]

@[simp] theorem Full.append_iff : Full (items ++ l) ↔ Full items ∧ Full l := by
  simp [Full, or_imp, forall_and]

theorem Full.size_pos (h : Full items) (hm : item ∈ items) : 0 < item.size :=
  List.length_pos_of_ne_nil (h item hm)

theorem Full.eq_nil (h : Full items) (h0 : bytes items = 0) : items = [] := by
  cases items with
  | nil => rfl
  | cons item rest =>
    have := h.size_pos List.mem_cons_self
    rw [bytes_cons] at h0
    omega

@[simp] theorem placed_append :
    Placed p (items ++ l) ↔ Placed p items ∧ Placed (p + bytes items) l := by
  induction items generalizing p with
  | nil => simp [Placed]
  | cons item rest ih => simp [Placed, ih, and_assoc, Nat.add_assoc]

theorem content_of_shape (h : shape items = shape l) : content items = content l := by
  have heq : ∀ k : List (TcpTxItem α), content k = (shape k).flatMap fun e => e.2 := by
    intro k
    simp [content, shape, List.flatMap_map]
  rw [heq, heq, h]

theorem Placed.of_shape (hp : Placed p items) (h : shape items = shape l) : Placed p l := by
  induction items generalizing p l with
  | nil =>
    cases l with
    | nil => trivial
    | cons item rest => simp [shape] at h
  | cons item rest ih =>
    cases l with
    | nil => simp [shape] at h
    | cons item' rest' =>
      simp only [shape, List.map_cons, List.cons.injEq, Prod.mk.injEq] at h
      obtain ⟨⟨h1, h2⟩, h3⟩ := h
      have hsize : item'.size = item.size := by simp only [TcpTxItem.size, h2]
      refine ⟨h1 ▸ hp.1, ?_⟩
      rw [hsize]
      exact ih hp.2 h3

theorem Full.of_shape (hf : Full items) (h : shape items = shape l) : Full l := by
  intro item hm
  have hmem : (item.startSeq, item.packet) ∈ shape l := List.mem_map_of_mem hm
  rw [← h] at hmem
  obtain ⟨item', hm', heq⟩ := List.mem_map.mp hmem
  obtain ⟨-, h2⟩ := Prod.mk.inj heq
  rw [← h2]
  exact hf item' hm'

end Lists

section Search
variable {numBytes p k : ℕ} {retrans : Counter}

structure Located (p k numBytes : ℕ) (items : List (TcpTxItem α)) (f : Found α) : Prop where
  before : content f.before = (content items).take k
  packet : f.item.packet = ((content items).drop k).take numBytes
  after : content f.after = (content items).drop (k + numBytes)
  placed : Placed p items → Placed p (f.before ++ f.item :: f.after)
  full : Full items → Full (f.before ++ f.item :: f.after)

theorem mergeItems_packet (t1 t2 : TcpTxItem α) (retrans : Counter) :
    (t1.mergeItems t2 retrans).1.packet = t1.packet ++ t2.packet ∧
      (t1.mergeItems t2 retrans).1.startSeq = t1.startSeq := by
  simp only [TcpTxItem.mergeItems]
  split_ifs <;> exact ⟨rfl, rfl⟩

theorem Located.of_merged {t t1 t2 : TcpTxItem α} {rest : List (TcpTxItem α)} {f : Found α}
    (h : Located p 0 numBytes (t :: rest) f) (hp : t.packet = t1.packet ++ t2.packet)
    (hs : t.startSeq = t1.startSeq) : Located p 0 numBytes (t1 :: t2 :: rest) f := by
  have hc : content (t :: rest) = content (t1 :: t2 :: rest) := by simp [hp]
  have hsize : t.size = t1.size + t2.size := by simp [TcpTxItem.size, hp]
  constructor
  · rw [← hc]
    exact h.before
  · rw [← hc]
    exact h.packet
  · rw [← hc]
    exact h.after
  · intro hplaced
    apply h.placed
    obtain ⟨h1, -, h3⟩ := hplaced
    refine ⟨hs.trans h1, ?_⟩
    rwa [hsize, ← Nat.add_assoc]
  · intro hfull
    apply h.full
    simp only [Full.cons_iff] at hfull ⊢
    exact ⟨by simp [hp, hfull.1], hfull.2.2⟩

theorem fitPacket_eq (nodes : ℕ) (item : TcpTxItem α) (after : List (TcpTxItem α))
    (retrans : Counter) (hle : numBytes ≤ item.size) (hsmall : item.size < 2147483648) :
    fitPacket numBytes (seqAt p) nodes item after retrans =
      some (if numBytes = item.size then ⟨[], item, after, retrans, nodes⟩
        else ⟨[], (item.splitItems numBytes nodes).1,
          (item.splitItems numBytes nodes).2 :: after, retrans, nodes + 1⟩) := by
  have hnear : Near (p + numBytes) (p + item.size) := ⟨by omega, by omega⟩
  have hin : seqLe (seqAdd (seqAt p) numBytes) (seqAdd (seqAt p) item.size) := by
    rw [seqAdd_at, seqAdd_at, seqLe_at hnear]
    omega
  rw [fitPacket.eq_def]
  simp only [hin, if_true]
  split_ifs
  · rfl
  · rfl
  · omega

theorem fitPacket_merge (nodes : ℕ) (item next : TcpTxItem α) (rest : List (TcpTxItem α))
    (retrans : Counter) (hlt : item.size < numBytes) (hsmall : numBytes < 2147483648) :
    fitPacket numBytes (seqAt p) nodes item (next :: rest) retrans =
      fitPacket numBytes (seqAt p) nodes (item.mergeItems next retrans).1 rest
        (item.mergeItems next retrans).2 := by
  have hnear : Near (p + numBytes) (p + item.size) := ⟨by omega, by omega⟩
  have hout : ¬ seqLe (seqAdd (seqAt p) numBytes) (seqAdd (seqAt p) item.size) := by
    rw [seqAdd_at, seqAdd_at, seqLe_at hnear]
    omega
  conv_lhs => rw [fitPacket.eq_def]
  simp only [hout, if_false]

theorem fitPacket_here (nodes : ℕ) (item : TcpTxItem α) (after : List (TcpTxItem α))
    (retrans : Counter) (hpos : 0 < numBytes) (hle : numBytes ≤ item.size)
    (hsmall : item.size < 2147483648) :
    ∃ f, fitPacket numBytes (seqAt p) nodes item after retrans = some f ∧ f.before = [] ∧
      ∀ q, Located q 0 numBytes (item :: after) f := by
  rw [fitPacket_eq nodes item after retrans hle hsmall]
  split_ifs with heq
  · refine ⟨_, rfl, rfl, fun q => ?_⟩
    have hall : item.packet.length = numBytes := heq.symm
    exact ⟨rfl, by simp [← hall], by simp [← hall], id, id⟩
  · refine ⟨_, rfl, rfl, fun q => ?_⟩
    have hlen : numBytes ≤ item.packet.length := hle
    have hlt : numBytes < item.packet.length := Nat.lt_of_le_of_ne hle heq
    refine ⟨rfl, ?_, ?_, ?_, ?_⟩
    · simp [TcpTxItem.splitItems, List.take_append_of_le_length hlen]
    · simp [TcpTxItem.splitItems, List.drop_append_of_le_length hlen]
    · intro hplaced
      obtain ⟨h1, h2⟩ := hplaced
      refine ⟨h1, ?_, ?_⟩
      · simp only [TcpTxItem.splitItems, TcpTxItem.size, List.length_take, Nat.min_eq_left hlen]
        rw [h1, seqAdd_at]
      · simp only [TcpTxItem.splitItems, TcpTxItem.size, List.length_take, Nat.min_eq_left hlen,
          List.length_drop]
        rwa [show q + numBytes + (item.packet.length - numBytes) = q + item.size by
          simp only [TcpTxItem.size]; omega]
    · simp only [List.nil_append, Full.cons_iff, TcpTxItem.splitItems]
      intro ⟨h1, h2⟩
      refine ⟨?_, ?_, h2⟩
      · apply List.ne_nil_of_length_pos
        rw [List.length_take]
        omega
      · apply List.ne_nil_of_length_pos
        rw [List.length_drop]
        exact Nat.sub_pos_of_lt hlt

theorem fitPacket_spec (nodes : ℕ) (item : TcpTxItem α) (after : List (TcpTxItem α))
    (retrans : Counter)
    (hpos : 0 < numBytes) (hle : numBytes ≤ bytes (item :: after))
    (hsmall : bytes (item :: after) < 2147483648) :
    ∃ f, fitPacket numBytes (seqAt p) nodes item after retrans = some f ∧ f.before = [] ∧
      ∀ q, Located q 0 numBytes (item :: after) f := by
  induction after generalizing item retrans with
  | nil =>
    rw [bytes_cons, bytes_nil, Nat.add_zero] at hle hsmall
    exact fitPacket_here nodes item [] retrans hpos hle hsmall
  | cons next rest ih =>
    rw [bytes_cons] at hle hsmall
    by_cases hin : numBytes ≤ item.size
    · exact fitPacket_here nodes item (next :: rest) retrans hpos hin (by omega)
    · obtain ⟨hp, hs⟩ := mergeItems_packet item next retrans
      have hsize : (item.mergeItems next retrans).1.size = item.size + next.size := by
        simp [TcpTxItem.size, hp]
      rw [bytes_cons] at hle hsmall
      obtain ⟨f, h1, h2, h3⟩ := ih (item.mergeItems next retrans).1
        (item.mergeItems next retrans).2 (by rw [bytes_cons, hsize]; omega)
        (by rw [bytes_cons, hsize]; omega)
      refine ⟨f, ?_, h2, fun q => (h3 q).of_merged hp hs⟩
      rw [fitPacket_merge nodes item next rest retrans (by omega) (by omega)]
      exact h1

theorem splitItems_size (item : TcpTxItem α) (nodes : ℕ) (h : k ≤ item.size) :
    (item.splitItems k nodes).1.size = k ∧ (item.splitItems k nodes).2.size = item.size - k := by
  have hlen : k ≤ item.packet.length := h
  simp [TcpTxItem.splitItems, TcpTxItem.size, Nat.min_eq_left hlen]

theorem Located.of_split {item : TcpTxItem α} {nodes : ℕ} {rest : List (TcpTxItem α)} {f : Found α}
    (h : Located (p + k) 0 numBytes ((item.splitItems k nodes).2 :: rest) f) (hb : f.before = [])
    (hk : 0 < k) (hlt : k < item.size) :
    Located p k numBytes (item :: rest)
      { f with before := (item.splitItems k nodes).1 :: f.before } := by
  have hlen : k ≤ item.packet.length := Nat.le_of_lt hlt
  obtain ⟨hs1, hs2⟩ := splitItems_size item nodes (Nat.le_of_lt hlt)
  have hrest : content ((item.splitItems k nodes).2 :: rest) =
      (content (item :: rest)).drop k := by
    simp [TcpTxItem.splitItems, List.drop_append_of_le_length hlen]
  have hpacket := h.packet
  have hafter := h.after
  rw [hrest] at hpacket hafter
  constructor
  · simp [hb, TcpTxItem.splitItems, List.take_append_of_le_length hlen]
  · simpa using hpacket
  · rw [hafter, List.drop_drop, Nat.zero_add]
  · intro ⟨h1, h2⟩
    refine ⟨h1, ?_⟩
    rw [hs1]
    apply h.placed
    refine ⟨?_, ?_⟩
    · simp only [TcpTxItem.splitItems, h1, seqAdd_at]
    · rwa [hs2, show p + k + (item.size - k) = p + item.size by omega]
  · intro hfull
    simp only [Full.cons_iff] at hfull
    simp only [List.cons_append, Full.cons_iff]
    refine ⟨?_, ?_⟩
    · apply List.ne_nil_of_length_pos
      have : 0 < (item.splitItems k nodes).1.size := by omega
      exact this
    · apply h.full
      rw [Full.cons_iff]
      refine ⟨?_, hfull.2⟩
      apply List.ne_nil_of_length_pos
      have : 0 < (item.splitItems k nodes).2.size := by omega
      exact this

theorem Located.behind {item : TcpTxItem α} {rest : List (TcpTxItem α)} {f : Found α}
    (h : Located (p + item.size) (k - item.size) numBytes rest f) (hk : item.size ≤ k) :
    Located p k numBytes (item :: rest) { f with before := item :: f.before } := by
  have hlen : item.packet.length ≤ k := hk
  have hsub : item.size = item.packet.length := rfl
  constructor
  · rw [content_cons, content_cons, h.before, List.take_append, List.take_of_length_le hlen, hsub]
  · rw [content_cons, List.drop_append, List.drop_of_length_le hlen, List.nil_append]
    exact h.packet
  · rw [content_cons, List.drop_append, List.drop_of_length_le (by omega), List.nil_append,
      h.after, hsub]
    congr 1
    omega
  · intro ⟨h1, h2⟩
    exact ⟨h1, h.placed h2⟩
  · intro hfull
    simp only [Full.cons_iff] at hfull
    simp only [List.cons_append, Full.cons_iff]
    exact ⟨hfull.1, h.full hfull.2⟩

theorem getPacketFromList_spec (nodes : ℕ) (items : List (TcpTxItem α)) (retrans : Counter)
    (hpos : 0 < numBytes) (hle : k + numBytes ≤ bytes items) (hsmall : bytes items < 2147483648)
    (hfull : Full items) :
    ∃ f, getPacketFromList numBytes (seqAt (p + k)) items (seqAt p) retrans nodes = some f ∧
      (k = 0 → f.before = []) ∧ Located p k numBytes items f := by
  induction items generalizing p k with
  | nil =>
    rw [bytes_nil] at hle
    omega
  | cons item rest ih =>
    have hsize := hfull.size_pos List.mem_cons_self
    rw [Full.cons_iff] at hfull
    rw [bytes_cons] at hle hsmall
    have hend : Near (p + k) (p + item.size) := ⟨by omega, by omega⟩
    have hstart : Near (p + k) p := ⟨by omega, by omega⟩
    simp only [getPacketFromList, seqAdd_at, seqLt_at hend, seqGt_at hstart, seqAt_inj hstart]
    by_cases hin : p + k < p + item.size
    · simp only [hin, if_true]
      by_cases h0 : k = 0
      · subst h0
        simp only [Nat.add_zero, if_true]
        obtain ⟨f, h1, h2, h3⟩ := fitPacket_spec (p := p) nodes item rest retrans hpos
          (by rw [bytes_cons]; omega) (by rw [bytes_cons]; omega)
        exact ⟨f, h1, fun _ => h2, h3 p⟩
      · have hne : ¬ p + k = p := by omega
        have hgt : p < p + k := by omega
        have hoff : (seqSub (seqAt (p + k)) (seqAt p) % 4294967296).toNat = k := by
          rw [seqSub_at hstart]
          omega
        obtain ⟨-, hs2⟩ := splitItems_size item nodes (show k ≤ item.size by omega)
        simp only [hne, hgt, hoff, if_true, if_false]
        obtain ⟨f, h1, h2, h3⟩ := fitPacket_spec (p := p + k) (nodes + 1)
          (item.splitItems k nodes).2 rest retrans hpos
          (by rw [bytes_cons, hs2]; omega) (by rw [bytes_cons, hs2]; omega)
        rw [h1]
        exact ⟨_, rfl, fun h => absurd h h0, (h3 (p + k)).of_split h2 (by omega) (by omega)⟩
    · simp only [hin, if_false]
      have hk : p + k = p + item.size + (k - item.size) := by omega
      obtain ⟨f, h1, -, h3⟩ := ih (p := p + item.size) (k := k - item.size) (by omega) (by omega)
        hfull.2
      rw [hk, h1]
      exact ⟨_, rfl, by omega, h3.behind (by omega)⟩

end Search

section Flags

theorem shape_cons (item : TcpTxItem α) (l : List (TcpTxItem α)) :
    shape (item :: l) = (item.startSeq, item.packet) :: shape l := rfl

theorem shape_append (l : List (TcpTxItem α)) : shape (items ++ l) = shape items ++ shape l :=
  List.map_append

theorem shape_sackFirst (items : List (TcpTxItem α)) : shape (sackFirst items).1 = shape items := by
  induction items with
  | nil => rfl
  | cons item rest ih =>
    simp only [sackFirst]
    split_ifs
    · simp [shape_cons, ih]
    · simp [shape_cons]

theorem shape_loseItems (resetSack : Bool) (items : List (TcpTxItem α)) (lostOut : Counter) :
    shape (loseItems resetSack items lostOut).1 = shape items := by
  induction items generalizing lostOut with
  | nil => rfl
  | cons item rest ih =>
    simp only [loseItems, shape_cons, ih]
    split_ifs <;> rfl

theorem shape_sackBlock (block : ℕ × ℕ) (items : List (TcpTxItem α)) (begin : ℕ)
    (sb : Scoreboard) : shape (sackBlock block items begin sb).1 = shape items := by
  induction items generalizing begin sb with
  | nil => rfl
  | cons item rest ih =>
    simp only [sackBlock]
    split_ifs <;> simp [shape_cons, ih]

theorem shape_sackBlocks (firstByteSeq sentSize : ℕ) (blocks : List (ℕ × ℕ))
    (items : List (TcpTxItem α)) (sb : Scoreboard) :
    shape (sackBlocks firstByteSeq sentSize blocks items sb).1 = shape items := by
  induction blocks generalizing items sb with
  | nil => rfl
  | cons block blocks ih =>
    simp only [sackBlocks]
    split_ifs
    · rfl
    · rw [ih, shape_sackBlock]

theorem shape_loseBelow (dupAckThresh : ℕ) (items : List (TcpTxItem α)) (sacked : ℕ)
    (lostOut : Counter) :
    shape (loseBelow dupAckThresh items sacked lostOut).1 = shape items := by
  induction items generalizing sacked lostOut with
  | nil => rfl
  | cons item rest ih =>
    simp only [loseBelow, shape_cons, ih]
    split_ifs <;> rfl

theorem shape_updateLostCount (b : TcpTxBuffer α) :
    shape b.updateLostCount.sentList = shape b.sentList := by
  simp only [updateLostCount]
  cases hs : b.sentList with
  | nil => simp [hs]
  | cons head rest =>
    have hrev : ∀ l : List (TcpTxItem α), shape l.reverse = (shape l).reverse := fun l => by
      simp [shape]
    simp only [shape_cons, shape_append, hrev, shape_loseBelow, List.reverse_reverse]
    rw [← shape_append, List.take_append_drop]
    split_ifs <;> rfl

theorem shape_update (b : TcpTxBuffer α) (list : List (ℕ × ℕ)) :
    shape (b.update list).1.sentList = shape b.sentList := by
  simp only [update]
  split_ifs
  · rw [shape_updateLostCount, shape_sackBlocks]
  · rw [shape_sackBlocks]

theorem shape_addRenoSack (b : TcpTxBuffer α) :
    shape b.addRenoSack.sentList = shape b.sentList := by
  simp only [addRenoSack]
  cases hs : b.sentList with
  | nil => simp [hs]
  | cons head rest =>
    cases hr : (sackFirst rest).2 with
    | none => simp [hs, hr]
    | some item => simp [hr, shape_cons, shape_sackFirst]

theorem shape_markHeadAsLost (b : TcpTxBuffer α) :
    shape b.markHeadAsLost.sentList = shape b.sentList := by
  simp only [markHeadAsLost]
  cases hs : b.sentList <;> simp [hs, shape_cons]

theorem shape_deleteRetransmittedFlagFromHead (b : TcpTxBuffer α) :
    shape b.deleteRetransmittedFlagFromHead.sentList = shape b.sentList := by
  simp only [deleteRetransmittedFlagFromHead]
  split_ifs
  · rfl
  · cases hs : b.sentList with
    | nil => simp [hs]
    | cons head rest =>
      simp only
      split_ifs
      · rfl
      · rw [hs]

theorem shape_unsackHead (b : TcpTxBuffer α) :
    shape b.unsackHead.sentList = shape b.sentList := by
  simp only [unsackHead]
  cases hs : b.sentList with
  | nil => simp [hs]
  | cons head rest =>
    by_cases hsack : head.sacked
    · simp [hsack, shape_markHeadAsLost, shape_addRenoSack, shape_cons]
    · simp [hsack, hs]

end Flags
end NetGymSim.Internet.TcpTxBuffer

import NetGymSim.Internet.TcpRxRuns
import NetGymSim.Internet.TcpTxRuns

/-!
# From one TCP buffer to the other

The segments that are copied from a transmit buffer may be lost, delayed, repeated and reordered on
their way to a receive buffer, and so may the acknowledgments on the way back.
-/

namespace NetGymSim.Internet
open Lib Network

structure Segment (α : Type*) where
  position : ℕ
  seq : ℕ
  packet : List α
  deriving DecidableEq

/-- What the application wrote, with everything that was ever sent in either direction. -/
structure Transfer (α : Type*) where
  tx : TcpTxBuffer.Run α
  rx : TcpRxBuffer.Run α
  written : List α := []
  segments : List (Segment α) := []
  acks : List (ℕ × ℕ) := []

inductive TransferEvent (α : Type*)
  /-- An acknowledgment that arrives is a `discard`. -/
  | sender (e : TcpTxBuffer.Event α)
  | arrive (segment : Segment α)
  | read (maxSize : ℕ)
  | acknowledge

namespace Transfer
open TcpRxBuffer (total total_append finish)
open TcpTxBuffer (bytes)
variable {α : Type*}

def accepted (s : Transfer α) : TcpTxBuffer.Event α → List α
  | .add p => if (s.tx.buf.add p).2 then p else []
  | _ => []

def sent (s : Transfer α) : TcpTxBuffer.Event α → List (Segment α)
  | .copy numBytes seq =>
      match s.tx.buf.copyFromSequence numBytes seq with
      | some (_, some item) =>
          [⟨s.tx.head + forward 4294967296 item.startSeq (seqAt s.tx.head), item.startSeq,
            item.packet⟩]
      | _ => []
  | _ => []

def next (isn : ℕ) (s : Transfer α) : TransferEvent α → Transfer α
  | .sender e => { s with
      tx := s.tx.next e
      written := s.written ++ s.accepted e
      segments := s.segments ++ s.sent e }
  | .arrive segment =>
      { s with rx := { s.rx with buf := (s.rx.buf.add segment.packet segment.seq).1 } }
  | .read maxSize => { s with rx :=
      { buf := (s.rx.buf.extract maxSize).1, out := s.rx.out ++ (s.rx.buf.extract maxSize).2 } }
  | .acknowledge => { s with
      acks := s.acks ++ [(s.rx.base isn + s.rx.buf.availBytes, s.rx.buf.nextRxSeq)] }

def acked : TcpTxBuffer.Event α → Option ℕ
  | .discard seq => some seq
  | _ => none

/-- Only what was sent arrives, before half of the sequence space has gone by. -/
def enabled (isn : ℕ) (s : Transfer α) : TransferEvent α → Prop
  | .sender e => s.tx.enabled e ∧ s.tx.Fits e ∧
      ∀ seq ∈ acked e, ∃ ack ∈ s.acks, ack.2 = seq ∧ s.tx.head < ack.1 + 2147483648
  | .arrive segment => segment ∈ s.segments ∧
      s.rx.InReach isn segment.position (segment.position + segment.packet.length)
  | .read _ | .acknowledge => True

def machine (isn : ℕ) : Machine (Transfer α) (TransferEvent α) := ⟨enabled isn, next isn⟩

instance [DecidableEq α] (isn : ℕ) (s : Transfer α) :
    (e : TransferEvent α) → Decidable ((machine isn).enabled s e)
  | .sender _ => inferInstanceAs (Decidable (_ ∧ _ ∧ _))
  | .arrive _ => inferInstanceAs (Decidable (_ ∧ _))
  | .read _ | .acknowledge => inferInstanceAs (Decidable True)

def start (isn maxTx dupAckThresh maxRx : ℕ) : Transfer α where
  tx := TcpTxBuffer.start isn maxTx dupAckThresh
  rx := TcpRxBuffer.start isn maxRx

def missing (isn : ℕ) (s : Transfer α) : ℕ := s.rx.base isn + s.rx.buf.availBytes

/-- The stream is read as it was written. What the receiver has not got in order is kept by the
sender, who can send the first byte of it again unless the request straddles the wrap. -/
structure Delivers (isn : ℕ) (s : Transfer α) : Prop where
  inOrder : s.rx.out <+: s.written
  expects : s.rx.buf.nextRxSeq = seqAt (s.missing isn)
  discarded : isn ≤ s.tx.head ∧ s.tx.head ≤ s.missing isn ∧ s.missing isn ≤ isn + s.written.length
  kept : s.tx.queue = s.written.drop (s.tx.head - isn)
  resent : ∀ n, 0 < n → s.missing isn < isn + s.written.length →
    s.missing isn - s.tx.head ≤ s.tx.buf.sentSize.value →
    (s.tx.Served n (s.missing isn - s.tx.head) ↔
      ¬ s.tx.buf.StraddlesWrap n (seqAt (s.missing isn)))

structure Sent (isn : ℕ) (written : List α) (segment : Segment α) : Prop where
  position : isn ≤ segment.position
  seq : segment.seq = seqAt segment.position
  length : segment.position - isn + segment.packet.length ≤ written.length
  packet : segment.packet =
    (written.drop (segment.position - isn)).take segment.packet.length

/-- Whatever is written later, the receiver reassembles a prefix of it. -/
structure Holds (isn : ℕ) (s : Transfer α) : Prop where
  tx : TcpTxBuffer.Holds s.tx
  rx : ∀ stream, s.written <+: stream → ∃ front back, TcpRxBuffer.Holds isn stream s.rx front back
  noFin : s.rx.buf.gotFin = false
  head : isn ≤ s.tx.head
  head_le : s.tx.head ≤ s.missing isn
  kept : s.tx.queue = s.written.drop (s.tx.head - isn)
  sent : ∀ segment ∈ s.segments, Sent isn s.written segment
  acks : ∀ ack ∈ s.acks, ack.1 ≤ s.missing isn ∧ ack.2 = seqAt ack.1

variable {isn : ℕ} {s : Transfer α} {stream : List α} {segment : Segment α}

theorem Sent.mono {written : List α} (h : Sent isn written segment) (hw : written <+: stream) :
    Sent isn stream segment := by
  obtain ⟨rest, rfl⟩ := hw
  have hlength := h.length
  refine ⟨h.position, h.seq, ?_, ?_⟩
  · rw [List.length_append]
    omega
  · rw [List.drop_append_of_le_length (by omega), List.take_append_of_le_length]
    · exact h.packet
    · rw [List.length_drop]
      omega

theorem copied {b b' : TcpTxBuffer α} {p n seq : ℕ} {item : TcpTxItem α}
    (h : TcpTxBuffer.Laid p b) (hseq : seq < 4294967296)
    (hc : b.copyFromSequence n seq = some (b', some item)) :
    ∃ k, TcpTxBuffer.Serves b p k n b' item := by
  have hsmall := h.small
  obtain ⟨k, hk, rfl⟩ : ∃ k < 4294967296, seq = seqAt (p + k) :=
    ⟨forward 4294967296 seq (p % 4294967296), forward_lt (by omega) _ _,
      (residue_forward p hseq).symm⟩
  by_cases hserved : 0 < n ∧ k < bytes b.sentList + bytes b.appList ∧ k ≤ bytes b.sentList
  · have hspec := TcpTxBuffer.copyFromSequence_spec h hserved.1 hserved.2.1 hserved.2.2
    split_ifs at hspec
    · rw [hspec] at hc
      cases hc
    · obtain ⟨b₁, item₁, hcopy, hserves⟩ := hspec
      rw [hcopy] at hc
      cases hc
      exact ⟨k, hserves⟩
  · exfalso
    by_cases hok : seqGt b.firstByteSeq (seqAt (p + k))
    · rw [TcpTxBuffer.copyFromSequence, TcpTxBuffer.copyFrom, if_pos hok] at hc
      cases hc
    · have hsize : b.sizeFromSequence (seqAt (p + k)) = bytes b.sentList + bytes b.appList - k := by
        by_cases hin : k ≤ bytes b.sentList + bytes b.appList
        · exact h.sizeFromSequence hin
        · rw [h.sizeFromSequence_zero hk (by omega) hok]
          omega
      rw [TcpTxBuffer.copyFromSequence, TcpTxBuffer.copyFrom, if_neg hok, hsize] at hc
      by_cases hzero : min n (bytes b.sentList + bytes b.appList - k) = 0
      · rw [hzero, if_pos rfl] at hc
        cases hc
      · have hgap : bytes b.sentList < k := by omega
        have hend : Near (p + bytes b.sentList)
          (p + k + min n (bytes b.sentList + bytes b.appList - k)) := ⟨by omega, by omega⟩
        have hstart : Near (p + bytes b.sentList) (p + k) := ⟨by omega, by omega⟩
        simp only [hzero, if_false, h.endOfSent, seqAdd_at, seqGe_at hend, seqLe_at hstart,
          seqAt_inj hstart] at hc
        rw [if_neg (by omega), if_pos (by omega), if_neg (by omega)] at hc
        cases hc

theorem start_holds (isn maxTx dupAckThresh maxRx : ℕ) :
    Holds isn (start isn maxTx dupAckThresh maxRx : Transfer α) where
  tx := .start isn maxTx dupAckThresh
  rx stream _ := ⟨[], [], .start isn stream maxRx⟩
  noFin := rfl
  head := le_refl isn
  head_le := le_refl isn
  kept := List.drop_nil.symm
  sent _ hmem := (List.not_mem_nil hmem).elim
  acks _ hmem := (List.not_mem_nil hmem).elim

theorem received {r : TcpRxBuffer.Run α} {front back : List (ℕ × List α)} {offset len : ℕ}
    (h : TcpRxBuffer.Holds isn stream r front back) (he : r.enabled isn stream (.add offset len)) :
    ∃ front' back',
      TcpRxBuffer.Holds isn stream (r.next isn stream (.add offset len)) front' back' ∧
      total front ≤ total front' ∧
      (r.next isn stream (.add offset len)).buf.gotFin = r.buf.gotFin := by
  rcases h.add_cases he with ⟨heq, -⟩ | ⟨e, lows, highs, size, -, hst, hsize, heq⟩
  · rw [heq]
    exact ⟨front, back, h, le_refl _, rfl⟩
  · obtain ⟨front₂, back₂, h', -⟩ := h.store hst.expected (seqAt (finish e)) hst.kept hst.low
      hst.high hst.behind hst.nonempty hst.within hst.length hst.carries hsize
    rw [heq]
    refine ⟨front ++ front₂, back₂, h', ?_, rfl⟩
    rw [total_append]
    exact Nat.le_add_right _ _

namespace Holds

theorem missing_le (h : Holds isn s) : s.missing isn ≤ isn + s.written.length := by
  obtain ⟨front, back, hrx⟩ := h.rx s.written (List.prefix_refl _)
  rw [missing, hrx.avail]
  exact hrx.next_le

theorem expects (h : Holds isn s) : s.rx.buf.nextRxSeq = seqAt (s.missing isn) := by
  obtain ⟨front, back, hrx⟩ := h.rx s.written (List.prefix_refl _)
  rw [hrx.next, missing, hrx.avail, TcpRxBuffer.finished, if_neg (by simp [h.noFin]), Nat.add_zero]

theorem length (h : Holds isn s) : s.tx.head + s.tx.queue.length = isn + s.written.length := by
  have hhead := h.head
  have hle := h.head_le.trans h.missing_le
  rw [h.kept, List.length_drop]
  omega

theorem small (h : Holds isn s) : s.tx.queue.length < 2147483648 := by
  rw [← h.tx.stored, TcpTxBuffer.stored_length]
  exact h.tx.laid.small

theorem discards (h : Holds isn s) {ack : ℕ × ℕ} (hack : ack ∈ s.acks)
    (hold : s.tx.head < ack.1 + 2147483648) :
    s.tx.buf.discards ack.2 = ack.1 - s.tx.head := by
  obtain ⟨hle, hseq⟩ := h.acks ack hack
  have hlength := h.length
  have hmissing := h.missing_le
  have hsmall := h.small
  have hnear : Near s.tx.head ack.1 := ⟨by omega, by omega⟩
  rw [hseq, TcpTxBuffer.discards, h.tx.laid.first]
  split_ifs with hge
  · rw [seqGe_at hnear] at hge
    omega
  · rw [seqGe_at hnear] at hge
    have hd : ack.1 - s.tx.head < 4294967296 := by omega
    have hforward := forward_residue s.tx.head hd
    rwa [Nat.add_sub_cancel' (by omega)] at hforward

theorem copy (h : Holds isn s) {n seq : ℕ} (hseq : seq < 4294967296) :
    ∀ segment ∈ s.sent (.copy n seq), Sent isn s.written segment := by
  intro segment hmem
  simp only [Transfer.sent] at hmem
  split at hmem
  · rename_i b' item hc
    obtain ⟨k, hserves⟩ := copied h.tx.laid hseq hc
    have hcarries := hserves.carries
    rw [h.tx.stored] at hcarries
    have hnonempty := hserves.nonempty
    have hsize := congrArg List.length hcarries
    rw [List.length_take, List.length_drop] at hsize
    have hhead := h.head
    have hlength := h.length
    have hsmall := h.small
    unfold TcpTxItem.size at hsize hnonempty hcarries
    have hk : k < 4294967296 := by omega
    rw [List.mem_singleton.mp hmem, hserves.starts]
    have hposition : forward 4294967296 (seqAt (s.tx.head + k)) (seqAt s.tx.head) = k :=
      forward_residue s.tx.head hk
    rw [hposition]
    refine ⟨?_, rfl, ?_, ?_⟩
    · exact hhead.trans (Nat.le_add_right _ _)
    · dsimp only
      omega
    · dsimp only
      rw [Nat.sub_add_comm hhead, ← List.drop_drop, ← h.kept]
      exact hcarries
  · exact (List.not_mem_nil hmem).elim

theorem sender (h : Holds isn s) {e : TcpTxBuffer.Event α} (he : enabled isn s (.sender e)) :
    Holds isn (s.next isn (.sender e)) := by
  obtain ⟨hen, hfits, hacked⟩ := he
  have hhead := h.head
  have hle := h.head_le
  have hmissing := h.missing_le
  have hwritten : s.written <+: s.written ++ s.accepted e := List.prefix_append _ _
  have hold : ∀ segment ∈ s.segments, Sent isn (s.written ++ s.accepted e) segment :=
    fun segment hmem => (h.sent segment hmem).mono hwritten
  have hnone : s.tx.queue = (s.written ++ []).drop (s.tx.head - isn) := by
    rw [List.append_nil]
    exact h.kept
  have hrx := fun stream hstream => h.rx stream (hwritten.trans hstream)
  have htx := h.tx.step hen hfits
  cases e with
  | add p =>
    refine ⟨htx, hrx, h.noFin, hhead, hle, ?_, ?_, h.acks⟩
    · show s.tx.queue ++ s.accepted (.add p) =
        (s.written ++ s.accepted (.add p)).drop (s.tx.head - isn)
      rw [List.drop_append_of_le_length (by omega), ← h.kept]
    · show ∀ segment ∈ s.segments ++ [], _
      rw [List.append_nil]
      exact hold
  | copy n seq =>
    refine ⟨htx, hrx, h.noFin, hhead, hle, hnone, fun segment hmem => ?_, h.acks⟩
    cases List.mem_append.mp hmem with
    | inl hmem => exact hold segment hmem
    | inr hmem => exact (h.copy hen.1 segment hmem).mono hwritten
  | discard seq =>
    obtain ⟨ack, hack, rfl, hrecent⟩ := hacked seq rfl
    have hd := h.discards hack hrecent
    have hlast := (h.acks ack hack).1
    refine ⟨htx, hrx, h.noFin, ?_, ?_, ?_, ?_, h.acks⟩
    · exact hhead.trans (Nat.le_add_right _ _)
    · show s.tx.head + s.tx.buf.discards ack.2 ≤ s.missing isn
      omega
    · show s.tx.queue.drop _ = (s.written ++ []).drop (s.tx.head + _ - isn)
      rw [List.append_nil, Nat.sub_add_comm hhead, ← List.drop_drop, ← h.kept]
    · show ∀ segment ∈ s.segments ++ [], _
      rw [List.append_nil]
      exact hold
  | _ =>
    refine ⟨htx, hrx, h.noFin, hhead, hle, hnone, ?_, h.acks⟩
    show ∀ segment ∈ s.segments ++ [], _
    rw [List.append_nil]
    exact hold

theorem step (h : Holds isn s) {e : TransferEvent α} (he : enabled isn s e) :
    Holds isn (s.next isn e) := by
  cases e with
  | sender e => exact h.sender he
  | arrive segment =>
    obtain ⟨hmem, hreach⟩ := he
    have hsent := h.sent segment hmem
    have hposition := Nat.add_sub_cancel' hsent.position
    -- the arrival is one of these bytes in any stream that goes on from what was written
    have harrive : ∀ stream, s.written <+: stream →
        s.rx.enabled isn stream (.add (segment.position - isn) segment.packet.length) ∧
        s.rx.next isn stream (.add (segment.position - isn) segment.packet.length) =
          (s.next isn (.arrive segment)).rx := by
      intro stream hstream
      have hmono := hsent.mono hstream
      refine ⟨⟨hmono.length, ?_⟩, ?_⟩
      · rw [hposition]
        exact hreach
      · rw [TcpRxBuffer.Run.next, hposition, ← hmono.packet, ← hmono.seq]
        rfl
    have hrx : ∀ stream, s.written <+: stream → ∃ front back,
        TcpRxBuffer.Holds isn stream (s.next isn (.arrive segment)).rx front back ∧
        s.rx.buf.availBytes ≤ total front ∧
        (s.next isn (.arrive segment)).rx.buf.gotFin = s.rx.buf.gotFin := by
      intro stream hstream
      obtain ⟨front, back, hrx⟩ := h.rx stream hstream
      obtain ⟨hadd, heq⟩ := harrive stream hstream
      have hreceived := received hrx hadd
      rw [heq, ← hrx.avail] at hreceived
      exact hreceived
    obtain ⟨front, back, hlast, hmore, hfin⟩ := hrx s.written (List.prefix_refl _)
    have hmissing : s.missing isn ≤ (s.next isn (.arrive segment)).missing isn := by
      rw [missing, missing, hlast.avail]
      exact Nat.add_le_add_left hmore _
    exact {
      tx := h.tx
      rx := fun stream hstream => by
        obtain ⟨front, back, hrx, -⟩ := hrx stream hstream
        exact ⟨front, back, hrx⟩
      noFin := hfin.trans h.noFin
      head := h.head
      head_le := h.head_le.trans hmissing
      kept := h.kept
      sent := h.sent
      acks := fun ack hack => ⟨(h.acks ack hack).1.trans hmissing, (h.acks ack hack).2⟩ }
  | read maxSize =>
    have hrx : ∀ stream, s.written <+: stream → ∃ front back,
        TcpRxBuffer.Holds isn stream (s.next isn (.read maxSize)).rx front back ∧
        (s.next isn (.read maxSize)).rx.base isn + total front = s.missing isn := by
      intro stream hstream
      obtain ⟨front, back, hrx⟩ := h.rx stream hstream
      obtain ⟨front', hrx', heq⟩ := hrx.extract maxSize
      rw [missing, hrx.avail]
      exact ⟨front', back, hrx', heq⟩
    have hmissing : (s.next isn (.read maxSize)).missing isn = s.missing isn := by
      obtain ⟨front, back, hlast, heq⟩ := hrx s.written (List.prefix_refl _)
      rw [← heq, missing, hlast.avail]
    exact {
      tx := h.tx
      rx := fun stream hstream => by
        obtain ⟨front, back, hrx, -⟩ := hrx stream hstream
        exact ⟨front, back, hrx⟩
      noFin := h.noFin
      head := h.head
      head_le := hmissing ▸ h.head_le
      kept := h.kept
      sent := h.sent
      acks := hmissing ▸ h.acks }
  | acknowledge =>
    refine ⟨h.tx, h.rx, h.noFin, h.head, h.head_le, h.kept, h.sent, fun ack hack => ?_⟩
    cases List.mem_append.mp hack with
    | inl hack => exact h.acks ack hack
    | inr hack =>
      rw [List.mem_singleton.mp hack]
      exact ⟨le_refl _, h.expects⟩

theorem delivers (h : Holds isn s) : Delivers isn s where
  inOrder := by
    obtain ⟨front, back, hrx⟩ := h.rx s.written (List.prefix_refl _)
    exact hrx.reassembled.delivered
  expects := h.expects
  discarded := ⟨h.head, h.head_le, h.missing_le⟩
  kept := h.kept
  resent := by
    intro n hn hlt hsent
    have hposition := Nat.add_sub_cancel' h.head_le
    have hlength := h.length
    have hserved := h.tx.streamKept.served n (s.missing isn - s.tx.head) hn (by omega) hsent
    rw [hposition] at hserved
    exact hserved

end Holds

end Transfer
end NetGymSim.Internet

import NetGymSim.Internet.TcpTxStream

/-!
# The transmit buffer over whole runs

A run adds data, asks for segments, acknowledges, sacks and resets. Beside the buffer it
keeps the queue of bytes that were accepted and not yet discarded, and the position of the
head. The stored bytes are that queue in every state, and a request from a byte of the
buffer is served with the bytes from there on, unless it straddles the wrap.
-/

namespace NetGymSim.Internet.TcpTxBuffer
open Lib Network

structure Run (α : Type*) where
  buf : TcpTxBuffer α
  head : ℕ
  queue : List α

inductive Event (α : Type*)
  | add (p : List α)
  | copy (numBytes seq : ℕ)
  | discard (seq : ℕ)
  | update (list : List (ℕ × ℕ))
  | resetLast
  | resetSent

section Machine
variable {α : Type*}

def Run.enabled (s : Run α) : Event α → Prop
  | .copy numBytes seq => seq < 4294967296 ∧ (s.buf.copyFromSequence numBytes seq).isSome
  | .discard seq => seq < 4294967296
  | _ => True

instance (s : Run α) : (e : Event α) → Decidable (s.enabled e)
  | .copy _ _ => inferInstanceAs (Decidable (_ ∧ _))
  | .discard _ => inferInstanceAs (Decidable (_ < _))
  | .add _ => inferInstanceAs (Decidable True)
  | .update _ => inferInstanceAs (Decidable True)
  | .resetLast => inferInstanceAs (Decidable True)
  | .resetSent => inferInstanceAs (Decidable True)

def Run.next (s : Run α) : Event α → Run α
  | .add p =>
      { s with buf := (s.buf.add p).1, queue := s.queue ++ (if (s.buf.add p).2 then p else []) }
  | .copy numBytes seq =>
      { s with buf := ((s.buf.copyFromSequence numBytes seq).map Prod.fst).getD s.buf }
  | .discard seq =>
      { buf := (s.buf.discardUpTo seq).getD s.buf
        head := s.head + s.buf.discards seq
        queue := s.queue.drop (s.buf.discards seq) }
  | .update list => { s with buf := (s.buf.update list).1 }
  | .resetLast => { s with buf := s.buf.resetLastSegmentSent }
  | .resetSent => { s with buf := s.buf.resetSentList }

def sender : Machine (Run α) (Event α) := ⟨Run.enabled, Run.next⟩

instance (s : Run α) (e : Event α) : Decidable (sender.enabled s e) :=
  inferInstanceAs (Decidable (s.enabled e))

def start (headSeq maxBuffer dupAckThresh : ℕ) : Run α :=
  ⟨create (seqAt headSeq) maxBuffer dupAckThresh, headSeq, []⟩

def Run.Fits (s : Run α) : Event α → Prop
  | .add p => s.queue.length + p.length < 2147483648
  | _ => True

instance (s : Run α) : (e : Event α) → Decidable (s.Fits e)
  | .add _ => inferInstanceAs (Decidable (_ < _))
  | .copy _ _ => inferInstanceAs (Decidable True)
  | .discard _ => inferInstanceAs (Decidable True)
  | .update _ => inferInstanceAs (Decidable True)
  | .resetLast => inferInstanceAs (Decidable True)
  | .resetSent => inferInstanceAs (Decidable True)

def Run.Served (s : Run α) (n k : ℕ) : Prop :=
  ∃ b' item, s.buf.copyFromSequence n (seqAt (s.head + k)) = some (b', some item) ∧
    item.startSeq = seqAt (s.head + k) ∧ 1 ≤ item.size ∧ item.size ≤ n ∧
    item.packet = (s.queue.drop k).take item.size

structure StreamKept (s : Run α) : Prop where
  stored : stored s.buf = s.queue
  first : s.buf.firstByteSeq = seqAt s.head
  served : ∀ n k, 0 < n → k < s.queue.length → k ≤ s.buf.sentSize.value →
    (s.Served n k ↔ ¬ s.buf.StraddlesWrap n (seqAt (s.head + k)))

end Machine

section Invariant
variable {α : Type*} {s : Run α}

structure Holds (s : Run α) : Prop where
  laid : Laid s.head s.buf
  stored : stored s.buf = s.queue

namespace Holds

theorem start (headSeq maxBuffer dupAckThresh : ℕ) :
    Holds (start headSeq maxBuffer dupAckThresh : Run α) :=
  ⟨.create headSeq maxBuffer dupAckThresh, rfl⟩

theorem step (h : Holds s) {e : Event α} (he : s.enabled e) (hf : s.Fits e) :
    Holds (s.next e) := by
  cases e with
  | add p =>
    have hlen : (TcpTxBuffer.stored s.buf).length + p.length < 2147483648 := by
      rw [h.stored]
      exact hf
    rw [stored_length] at hlen
    obtain ⟨h1, h2⟩ := h.laid.add p hlen
    refine ⟨h1, ?_⟩
    rw [Run.next, h2, h.stored]
  | copy numBytes seq =>
    obtain ⟨hseq, hsome⟩ := he
    obtain ⟨⟨b', r⟩, hc⟩ := Option.isSome_iff_exists.mp hsome
    obtain ⟨h1, h2⟩ := h.laid.copyFromSequence hseq hc
    simp only [Run.next, hc, Option.map_some, Option.getD_some]
    exact ⟨h1, h2.trans h.stored⟩
  | discard seq =>
    obtain ⟨b', hb, h1, h2⟩ := h.laid.discardUpTo he
    simp only [Run.next, hb, Option.getD_some]
    exact ⟨h1, by rw [h2, h.stored]⟩
  | update list =>
    obtain ⟨h1, h2⟩ := h.laid.update list
    exact ⟨h1, h2.trans h.stored⟩
  | resetLast =>
    obtain ⟨h1, h2⟩ := h.laid.resetLastSegmentSent
    exact ⟨h1, h2.trans h.stored⟩
  | resetSent =>
    obtain ⟨h1, h2⟩ := h.laid.resetSentList
    exact ⟨h1, h2.trans h.stored⟩

theorem streamKept (h : Holds s) : StreamKept s where
  stored := h.stored
  first := h.laid.first
  served := by
    intro n k hn hk hgap
    rw [← h.stored, stored_length] at hk
    rw [h.laid.sentSize, Counter.exactly_value] at hgap
    have hspec := copyFromSequence_spec h.laid hn hk hgap
    split_ifs at hspec with hw
    · constructor
      · intro ⟨b', item, hc, _⟩
        rw [hspec] at hc
        cases hc
      · exact fun hno => absurd hw hno
    · obtain ⟨b', item, hc, hserves⟩ := hspec
      refine ⟨fun _ => hw, fun _ => ⟨b', item, hc, hserves.starts, hserves.nonempty,
        hserves.atMost, ?_⟩⟩
      rw [← h.stored]
      exact hserves.carries

end Holds
end Invariant

/-- As long as less than half of the sequence space is stored, no byte is lost, repeated or moved,
and exactly the requests that do not straddle the wrap are served with the stream. -/
theorem tcp_tx_buffer_keeps_stream {α : Type*} (headSeq maxBuffer dupAckThresh : ℕ)
    {es : List (Event α)} {s : Run α}
    (h : (sender.restrict Run.Fits).Reaches (start headSeq maxBuffer dupAckThresh) es s) :
    StreamKept s := by
  have h0 : Holds (start headSeq maxBuffer dupAckThresh : Run α) := .start _ _ _
  have hs : Holds s := by
    refine Machine.Reaches.invariant (P := Holds) h0 ?_ h
    intro s e hs ⟨he, hf⟩
    exact hs.step he hf
  exact hs.streamKept

instance {α : Type*} (s : Run α) (e : Event α) :
    Decidable ((sender.restrict Run.Fits).enabled s e) :=
  inferInstanceAs (Decidable (s.enabled e ∧ s.Fits e))

theorem tcp_tx_buffer_keeps_stream_across_wrap :
    StreamKept (sender.exec (start 4294967290 100 3)
      [.add (List.range 20), .copy 12 4294967290, .update [(2, 6)], .discard 4294967292,
        .copy 4 4294967294, .resetLast, .add [7, 8]]) :=
  tcp_tx_buffer_keeps_stream 4294967290 100 3 (Machine.Permits.reaches (by decide +kernel))

/-- Sent and unsent data are asked for at once where the numbers wrap: a null pointer is followed,
though the request lies in the buffer, behind no gap, and nothing is sacked. -/
theorem straddling_request_fails :
    ∃ s : Run ℕ, (sender.restrict Run.Fits).Reaches (start 4294967290 100 3)
        [.add (List.range 20), .copy 12 4294967290] s ∧
      0 < s.queue.length ∧ (∀ item ∈ s.buf.sentList, ¬ item.sacked) ∧
      s.buf.copyFromSequence 20 (seqAt (s.head + 0)) = none :=
  ⟨_, Machine.Permits.reaches (by decide +kernel), by decide +kernel⟩

end NetGymSim.Internet.TcpTxBuffer

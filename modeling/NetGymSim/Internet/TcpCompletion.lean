import NetGymSim.Internet.TcpTransfer

/-!
# No transfer is stuck

Whatever was lost, repeated or reordered before, the first byte that the receiver lacks can be sent
again and taken in, and so all that was written can be read in the end.
-/

namespace NetGymSim.Internet
open Lib Network

namespace TcpRxBuffer
variable {α : Type*} {isn n len : ℕ} {stream : List α} {r : Run α} {front back : List (ℕ × List α)}

theorem maxBuffer_add (b : TcpRxBuffer α) (p : List α) (seq : ℕ) :
    (b.add p seq).1.maxBuffer = b.maxBuffer := by
  simp only [add]
  split_ifs <;> rfl

namespace Holds

theorem emptied (h : Holds isn stream r front back) :
    Holds isn stream (r.next isn stream (.extract r.buf.availBytes)) [] back ∧
      (r.next isn stream (.extract r.buf.availBytes)).base isn = r.base isn + total front := by
  obtain ⟨front', h', hbase⟩ := h.extract r.buf.availBytes
  have hlt := h.front_lt
  have hsize := h.size
  have htot := h.apart.total_le
  rw [total_append] at htot hsize
  have havail : r.buf.availBytes < 4294967296 := by
    rw [h.avail]
    omega
  obtain ⟨_, -, -, -, -, hr⟩ := extractLoop_spec h.apart h.tiles
    (fun e he => h.carries e (List.mem_append_left back he)) (le_refl (total front))
    (show r.buf.size < 4294967296 by omega) (by omega) havail h.avail.ge (Nat.le_add_right _ _)
    h.beyond
  rw [extractLoop_out, ← h.data, Prod.mk.injEq, Prod.mk.injEq, Prod.mk.injEq] at hr
  have hempty : (r.next isn stream (.extract r.buf.availBytes)).buf.availBytes = 0 := by
    show (extractLoop r.buf.data (min r.buf.availBytes r.buf.availBytes) r.buf.size
      r.buf.availBytes []).2.2.1 = 0
    rw [Nat.min_self]
    nth_rewrite 1 [h.avail]
    rw [hr.2.2.1, h.avail, Nat.sub_self]
  rw [h'.avail] at hempty
  have hnil : front' = [] := by
    cases front' with
    | nil => rfl
    | cons e rest =>
      have hn := h'.apart.nonempty e (List.mem_append_left back List.mem_cons_self)
      unfold finish at hn
      rw [total_cons] at hempty
      omega
  subst hnil
  exact ⟨h', hbase⟩

theorem reach_missing (h : Holds isn stream r [] back) (hfin : r.buf.gotFin = false)
    (hin : r.base isn + len ≤ isn + stream.length)
    (hroom : isn + stream.length + r.buf.maxBuffer < r.base isn + 2147483648) :
    r.InReach isn (r.base isn) (r.base isn + len) := by
  have hnext : r.position isn r.buf.nextRxSeq = r.base isn := by
    rw [h.position_next, finished, if_neg (by simp [hfin])]
    rfl
  unfold Run.InReach
  simp only [hnext]
  refine ⟨⟨by omega, by omega⟩, ⟨by omega, by omega⟩, ⟨by omega, by omega⟩, fun e he => ?_⟩
  rw [h.data, List.nil_append] at he
  cases back with
  | nil => cases he
  | cons f rest =>
    obtain rfl : (seqAt f.1, f.2) = e := Option.some.inj he
    have hmem : f ∈ [] ++ f :: rest := List.mem_cons_self
    have hstart := h.apart.starts f hmem
    have hnonempty := h.apart.nonempty f hmem
    have hend := h.within f hmem
    rw [position_at hstart (by omega)]
    intro p hp
    rcases List.mem_pair.mp hp with rfl | rfl
    · exact ⟨⟨by omega, by omega⟩, ⟨by omega, by omega⟩, ⟨by omega, by omega⟩⟩
    · exact ⟨⟨by omega, by omega⟩, ⟨by omega, by omega⟩, ⟨by omega, by omega⟩⟩

theorem trimWindow_missing (h : Holds isn stream r [] back) (hfin : r.buf.gotFin = false)
    (hlen : 0 < len) (hin : r.base isn + len ≤ isn + stream.length)
    (hroom : isn + stream.length + r.buf.maxBuffer < r.base isn + 2147483648) :
    ∃ tail, r.base isn < tail ∧ tail ≤ r.base isn + len ∧
      r.buf.trimWindow (seqAt (r.base isn)) len = (seqAt (r.base isn), seqAt tail) := by
  have hnext : r.buf.nextRxSeq = seqAt (r.base isn) := by
    rw [h.next, finished, if_neg (by simp [hfin])]
    rfl
  have hdata : r.buf.data = numbered back := h.data
  cases back with
  | nil =>
    refine ⟨r.base isn + len, by omega, le_refl _, ?_⟩
    rw [trimWindow, hdata, hnext, ite_self, seqAdd_at]
    rfl
  | cons f rest =>
    have hmem : f ∈ [] ++ f :: rest := List.mem_cons_self
    have hbeyond : r.base isn < f.1 := h.beyond f List.mem_cons_self
    have hnonempty := h.apart.nonempty f hmem
    have hend := h.within f hmem
    have hcut : Near (f.1 + r.buf.maxBuffer) (r.base isn + len) := ⟨by omega, by omega⟩
    have hstart : Near (min (r.base isn + len) (f.1 + r.buf.maxBuffer)) (r.base isn) :=
      ⟨by omega, by omega⟩
    have htail : (if seqLt (seqAt (f.1 + r.buf.maxBuffer)) (seqAt (r.base isn + len)) then
        seqAt (f.1 + r.buf.maxBuffer) else seqAt (r.base isn + len)) =
        seqAt (min (r.base isn + len) (f.1 + r.buf.maxBuffer)) := by
      simp only [seqLt_at hcut]
      split_ifs with hlt
      · rw [Nat.min_eq_right (Nat.le_of_lt hlt)]
      · rw [Nat.min_eq_left (Nat.le_of_not_lt hlt)]
    refine ⟨min (r.base isn + len) (f.1 + r.buf.maxBuffer), by omega, by omega, ?_⟩
    rw [trimWindow, hdata, hnext, ite_self, seqAdd_at, numbered_cons]
    dsimp only
    rw [seqAdd_at, htail, if_neg]
    rw [seqLt_at hstart]
    omega

theorem storedRange_missing (h : Holds isn stream r [] back) (hfin : r.buf.gotFin = false)
    (hlen : 0 < len) (hin : r.base isn + len ≤ isn + stream.length)
    (hroom : isn + stream.length + r.buf.maxBuffer < r.base isn + 2147483648) :
    r.buf.storedRange (seqAt (r.base isn)) len ≠ none := by
  obtain ⟨tail, hlt, hle, hw⟩ := h.trimWindow_missing hfin hlen hin hroom
  have hsize : r.buf.size = total back := h.size
  have htot := h.apart.total_le
  rw [List.nil_append] at htot
  obtain ⟨kept, head', tail', hk, -, hr⟩ := trimOverlap_spec h.apart le_rfl
    (Nat.le_of_lt hlt) (by omega) (show r.buf.size < 4294967296 by omega) hsize.ge
  have hstored := hk.stored hlt h.beyond
  have hnear := near_within hk.head_within.1 hk.head_within.2 hk.tail_within.1 hk.tail_within.2
  rw [storedRange, hw]
  dsimp only
  rw [h.data, hr, if_neg]
  · exact Option.some_ne_none _
  · rw [seqGe_at hnear]
    omega

theorem takes_missing (h : Holds isn stream r [] back) (hfin : r.buf.gotFin = false)
    (hlen : 0 < len) (hin : r.base isn + len ≤ isn + stream.length)
    (hroom : isn + stream.length + r.buf.maxBuffer < r.base isn + 2147483648) :
    ∃ front' back',
      Holds isn stream (r.next isn stream (.add (r.base isn - isn) len)) front' back' ∧
      0 < total front' := by
  have hposition : isn + (r.base isn - isn) = r.base isn :=
    Nat.add_sub_cancel' (Nat.le_add_right _ _)
  have he : r.enabled isn stream (.add (r.base isn - isn) len) := by
    refine ⟨by omega, ?_⟩
    rw [hposition]
    exact h.reach_missing hfin hin hroom
  rcases h.add_cases he with ⟨-, hnone⟩ | ⟨e, lows, highs, size, -, hst, hsize, heq⟩
  · rw [hposition] at hnone
    exact absurd hnone (h.storedRange_missing hfin hlen hin hroom)
  · obtain ⟨front₂, back₂, h', hsplit, -⟩ := h.store hst.expected (seqAt (finish e)) hst.kept
      hst.low hst.high hst.behind hst.nonempty hst.within hst.length hst.carries hsize
    rw [heq]
    refine ⟨front₂, back₂, h', Nat.pos_of_ne_zero fun hzero => ?_⟩
    have hstart : e.1 = r.base isn := hst.start hposition.le
    have hmem : e ∈ front₂ ++ back₂ := by
      rw [← hsplit]
      exact List.mem_append_right _ List.mem_cons_self
    cases List.mem_append.mp hmem with
    | inl hmem =>
      have hnonempty := hst.nonempty
      have hle : finish e ≤ r.base isn + total front₂ := h'.front_le hmem
      omega
    | inr hmem =>
      have hbeyond : r.base isn + total front₂ < e.1 := h'.beyond e hmem
      omega

end Holds
end TcpRxBuffer

namespace Transfer
variable {α : Type*} {isn : ℕ} {s : Transfer α}

/-- What was written and does not arrive in order yet fits in half of the sequence space, with a
receive window behind it. -/
def Roomy (isn : ℕ) (s : Transfer α) : Prop :=
  isn + s.written.length + s.rx.buf.maxBuffer < s.missing isn + 2147483648

theorem reaches_next {e : TransferEvent α} (he : enabled isn s e) :
    (machine isn).Reaches s [e] (s.next isn e) := Machine.Reaches.nil.snoc e he

namespace Holds

theorem readAll (h : Holds isn s) :
    let t := s.next isn (.read s.rx.buf.availBytes)
    t.rx.base isn = s.missing isn ∧ t.missing isn = s.missing isn ∧
      ∃ back, TcpRxBuffer.Holds isn s.written t.rx [] back := by
  obtain ⟨front, back, hrx⟩ := h.rx s.written (List.prefix_refl _)
  obtain ⟨hempty, hbase⟩ := hrx.emptied
  have hall : (s.next isn (.read s.rx.buf.availBytes)).rx.base isn = s.missing isn :=
    hbase.trans (congrArg (s.rx.base isn + ·) hrx.avail.symm)
  refine ⟨hall, ?_, back, hempty⟩
  rw [missing, hall]
  exact congrArg (s.missing isn + ·) hempty.avail

/-- The sender gives up what was acknowledged, and then one byte is copied from its buffer. -/
theorem resend (h : Holds isn s) (hlt : s.missing isn < isn + s.written.length)
    (hack : (s.missing isn, seqAt (s.missing isn)) ∈ s.acks) :
    ∃ es t, (machine isn).Reaches s es t ∧ t.written = s.written ∧ t.rx = s.rx ∧
      ∃ segment ∈ t.segments, segment.position = s.missing isn ∧ segment.packet.length = 1 := by
  have hword : seqAt (s.missing isn) < 4294967296 := Nat.mod_lt _ (by decide)
  have hle := h.head_le
  have hrecent : s.tx.head < s.missing isn + 2147483648 := by omega
  have hdiscard : enabled isn s (.sender (.discard (seqAt (s.missing isn)))) := by
    refine ⟨hword, trivial, fun seq hseq => ⟨_, hack, Option.some.inj hseq, hrecent⟩⟩
  have h' := h.step hdiscard
  set t := s.next isn (.sender (.discard (seqAt (s.missing isn))))
  have hhead : t.tx.head = s.missing isn := by
    show s.tx.head + s.tx.buf.discards (seqAt (s.missing isn)) = s.missing isn
    rw [h.discards hack hrecent]
    exact Nat.add_sub_cancel' hle
  have hwritten : t.written = s.written := List.append_nil _
  have hlength := h'.length
  rw [hhead, hwritten] at hlength
  have hserved : t.tx.Served 1 0 := by
    refine (h'.tx.streamKept.served 1 0 Nat.one_pos (by omega) (Nat.zero_le _)).mpr ?_
    rintro ⟨hpos, hshort, -⟩
    omega
  obtain ⟨b', item, hcopy, hstarts, hnonempty, hone, -⟩ := hserved
  rw [hhead, Nat.add_zero] at hcopy hstarts
  have hresend : enabled isn t (.sender (.copy 1 (seqAt (s.missing isn)))) :=
    ⟨⟨hword, by rw [hcopy]; rfl⟩, trivial, fun seq hseq => absurd hseq (Option.not_mem_none seq)⟩
  refine ⟨_, t.next isn (.sender (.copy 1 (seqAt (s.missing isn)))),
    (reaches_next hdiscard).append (reaches_next hresend), (List.append_nil _).trans hwritten, rfl,
    ⟨s.missing isn, seqAt (s.missing isn), item.packet⟩, ?_, rfl, Nat.le_antisymm hone hnonempty⟩
  show _ ∈ t.segments ++ t.sent (.copy 1 (seqAt (s.missing isn)))
  apply List.mem_append_right
  have hzero : forward 4294967296 (seqAt (s.missing isn)) (seqAt (s.missing isn)) = 0 :=
    forward_residue (s.missing isn) (show 0 < 4294967296 by decide)
  simp only [Transfer.sent, hcopy, hstarts, hhead, hzero, Nat.add_zero, List.mem_singleton]

theorem turn (h : Holds isn s) (hroom : s.Roomy isn)
    (hlt : s.missing isn < isn + s.written.length) :
    ∃ es t, (machine isn).Reaches s es t ∧ t.written = s.written ∧ t.Roomy isn ∧
      s.missing isn < t.missing isn := by
  obtain ⟨hbase, hmissing, back, hrx⟩ := h.readAll
  have h₁ := h.step (e := .read s.rx.buf.availBytes) trivial
  set s₁ := s.next isn (.read s.rx.buf.availBytes)
  have h₂ := h₁.step (e := .acknowledge) trivial
  set s₂ := s₁.next isn .acknowledge
  have hack : (s₂.missing isn, seqAt (s₂.missing isn)) ∈ s₂.acks :=
    List.mem_append_right _ (List.mem_singleton.mpr (Prod.ext rfl h₁.expects.symm))
  have hsame : s₂.missing isn = s.missing isn := hmissing
  obtain ⟨es, t, hreach, hwritten, hrx', segment, hmem, hmiss, hlength⟩ :=
    h₂.resend (hsame ▸ hlt) hack
  have hposition : segment.position = s₁.rx.base isn := hmiss.trans (hsame.trans hbase.symm)
  have hsent := (hreach.invariant h₂ fun _ _ hs he => hs.step he).sent segment hmem
  have hwritten : t.written = s.written := hwritten
  have hpacket : segment.packet = (s.written.drop (s₁.rx.base isn - isn)).take 1 := by
    simpa only [hlength, hwritten, hposition] using hsent.packet
  have hspace : isn + s.written.length + s₁.rx.buf.maxBuffer < s₁.rx.base isn + 2147483648 :=
    hbase ▸ hroom
  have hin : s₁.rx.base isn + 1 ≤ isn + s.written.length := by omega
  obtain ⟨front, back', htaken, hpos⟩ := hrx.takes_missing h₁.noFin Nat.one_pos hin hspace
  have harrive : enabled isn t (.arrive segment) := by
    refine ⟨hmem, ?_⟩
    rw [hrx', hlength, hposition]
    exact hrx.reach_missing h₁.noFin hin hspace
  have hnext : s₁.rx.next isn s.written (.add (s₁.rx.base isn - isn) 1) =
      (t.next isn (.arrive segment)).rx := by
    have hle : isn ≤ s₁.rx.base isn := Nat.le_add_right _ _
    rw [TcpRxBuffer.Run.next, ← hpacket, Nat.add_sub_cancel' hle, ← hposition, ← hsent.seq]
    show _ = { t.rx with buf := (t.rx.buf.add segment.packet segment.seq).1 }
    rw [hrx']
    rfl
  rw [hnext] at htaken
  have hout : (t.next isn (.arrive segment)).rx.base isn = s.missing isn := by
    rw [← hnext]
    exact hbase
  have hmore : (t.next isn (.arrive segment)).missing isn =
      s.missing isn + TcpRxBuffer.total front := by
    rw [missing, htaken.avail, hout]
  have hbuffer : (t.next isn (.arrive segment)).rx.buf.maxBuffer = s.rx.buf.maxBuffer := by
    rw [← hnext]
    exact TcpRxBuffer.maxBuffer_add _ _ _
  have hread : (machine isn).Reaches s [.read s.rx.buf.availBytes] s₁ := reaches_next trivial
  have hacked : (machine isn).Reaches s₁ [.acknowledge] s₂ := reaches_next trivial
  refine ⟨_, t.next isn (.arrive segment),
    ((hread.append hacked).append hreach).append (reaches_next harrive), hwritten, ?_, ?_⟩
  · show isn + t.written.length + _ < _
    rw [hwritten, hbuffer, hmore]
    exact hroom.trans_le (by omega)
  · rw [hmore]
    exact Nat.lt_add_of_pos_right hpos

theorem completes (h : Holds isn s) (hroom : s.Roomy isn) :
    ∃ es t, (machine isn).Reaches s es t ∧ t.written = s.written ∧ t.rx.out = s.written := by
  induction hn : isn + s.written.length - s.missing isn using Nat.strong_induction_on
    generalizing s with
  | h n ih =>
    by_cases hlt : s.missing isn < isn + s.written.length
    · obtain ⟨es, t, hreach, hwritten, hroom', hmore⟩ := h.turn hroom hlt
      have ht := hreach.invariant h fun _ _ hs he => hs.step he
      obtain ⟨es', u, hreach', hwritten', hout⟩ :=
        ih (isn + t.written.length - t.missing isn) (by rw [hwritten]; omega) ht hroom' rfl
      exact ⟨es ++ es', u, hreach.append hreach', hwritten'.trans hwritten, hout.trans hwritten⟩
    · obtain ⟨hbase, -, back, hrx⟩ := h.readAll
      refine ⟨_, _, reaches_next (e := .read s.rx.buf.availBytes) trivial, rfl, ?_⟩
      have hle := h.missing_le
      have hout := hrx.out
      rw [hbase, List.take_of_length_le (by omega)] at hout
      exact hout

end Holds

/-- From every state that a transfer comes to, all that was written can still be read: some
retransmissions and acknowledgments that are not lost are enough. -/
theorem transfer_completes (isn maxTx dupAckThresh maxRx : ℕ) {es : List (TransferEvent α)}
    (h : (machine isn).Reaches (start isn maxTx dupAckThresh maxRx) es s) (hroom : s.Roomy isn) :
    ∃ es' t, (machine isn).Reaches (start isn maxTx dupAckThresh maxRx) (es ++ es') t ∧
      t.written = s.written ∧ t.rx.out = s.written := by
  have hs := h.invariant (start_holds isn maxTx dupAckThresh maxRx) fun _ _ hs he => hs.step he
  obtain ⟨es', t, hreach, hwritten, hout⟩ := hs.completes hroom
  exact ⟨es', t, h.append hreach, hwritten, hout⟩

/-- The acknowledgment is lost and the sender starts again. -/
theorem transfer_completes_reset :
    let es : List (TransferEvent ℕ) := [.sender (.add (List.range 6)), .sender (.copy 4 4294967294),
      .arrive ⟨4294967294, 4294967294, [0, 1, 2, 3]⟩, .sender .resetSent]
    ∃ es' t, (machine 4294967294).Reaches (start 4294967294 100 3 100) (es ++ es') t ∧
      t.written = List.range 6 ∧ t.rx.out = List.range 6 :=
  transfer_completes 4294967294 100 3 100 (Machine.Permits.reaches (by decide +kernel))
    (by unfold Roomy; decide +kernel)

end Transfer
end NetGymSim.Internet

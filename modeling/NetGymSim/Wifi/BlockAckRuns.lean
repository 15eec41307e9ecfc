import NetGymSim.Wifi.BlockAckCodec

/-!
# What a BlockAck reports

Bit `i` of the scoreboard is set when the MPDU with the number `scoreBase + i` has been
received. `FillBlockAckBitmap` copies the bits, the codec carries them over, and so the
peer reads a sequence number of the bitmap as received exactly when it was.
-/

namespace NetGymSim.Wifi
open NetGymSim.Lib

/-! ### The scoreboard -/

namespace BlockAckWindow
variable {w : BlockAckWindow}

theorem winSize_mark (d : ℕ) : (w.mark d).winSize = w.winSize := List.length_set ..

theorem place_inj {i d : ℕ} (hi : i < w.winSize) (hd : d < w.winSize)
    (h : (w.head + i) % w.winSize = (w.head + d) % w.winSize) : i = d := by
  have hmod : Nat.ModEq w.winSize i d := Nat.ModEq.add_left_cancel' w.head h
  rwa [Nat.ModEq, Nat.mod_eq_of_lt hi, Nat.mod_eq_of_lt hd] at hmod

theorem get_mark {i d : ℕ} (hi : i < w.winSize) (hd : d < w.winSize) :
    (w.mark d).get i ↔ i = d ∨ w.get i := by
  have hlt : (w.head + d) % w.winSize < w.window.length := Nat.mod_lt _ (by omega)
  unfold get
  rw [winSize_mark]
  unfold mark
  simp only [List.getD_eq_getElem?_getD, List.getElem?_set]
  by_cases h : i = d
  · subst h
    simp [hlt]
  · have hne : (w.head + d) % w.winSize ≠ (w.head + i) % w.winSize := fun he =>
      h (place_inj hi hd he.symm)
    simp [hne, h]

theorem clearHead_spec (hh : w.head < w.winSize) :
    w.clearHead.winSize = w.winSize ∧ w.clearHead.head < w.winSize ∧
      w.clearHead.winStart = w.winStart ∧
      ∀ i < w.winSize, (w.clearHead.get i ↔ i + 1 < w.winSize ∧ w.get (i + 1)) := by
  have hsize : w.clearHead.winSize = w.winSize := List.length_set ..
  refine ⟨hsize, Nat.mod_lt _ (by omega), rfl, fun i hi => ?_⟩
  unfold get
  rw [hsize]
  unfold clearHead
  have hplace : ((w.head + 1) % w.winSize + i) % w.winSize = (w.head + (i + 1)) % w.winSize := by
    rw [Nat.mod_add_mod, Nat.add_assoc, Nat.add_comm 1 i]
  simp only [List.getD_eq_getElem?_getD, List.getElem?_set, hplace]
  by_cases hlast : i + 1 < w.winSize
  · have hne : w.head ≠ (w.head + (i + 1)) % w.winSize := by
      intro he
      have hmod : (w.head + 0) % w.winSize = (w.head + (i + 1)) % w.winSize := by
        rw [Nat.add_zero, Nat.mod_eq_of_lt hh]
        exact he
      have := place_inj (by omega) hlast hmod
      omega
    simp [hne, hlast]
  · have heq : (w.head + (i + 1)) % w.winSize = w.head := by
      rw [show i + 1 = w.winSize by omega, Nat.add_mod_right, Nat.mod_eq_of_lt hh]
    rw [heq]
    simp only [↓reduceIte, hlast, false_and, iff_false]
    split_ifs <;> simp

theorem clearHead_iterate (hh : w.head < w.winSize) (count : ℕ) :
    (clearHead^[count] w).winSize = w.winSize ∧ (clearHead^[count] w).head < w.winSize ∧
      ∀ i < w.winSize, ((clearHead^[count] w).get i ↔
        i + count < w.winSize ∧ w.get (i + count)) := by
  induction count with
  | zero =>
    refine ⟨rfl, hh, fun i hi => ?_⟩
    simp [hi]
  | succ count ih =>
    obtain ⟨i1, i2, i3⟩ := ih
    rw [Function.iterate_succ_apply']
    obtain ⟨c1, c2, _, c4⟩ := clearHead_spec (w := clearHead^[count] w) (by rw [i1]; exact i2)
    rw [i1] at c1 c2 c4
    refine ⟨c1, c2, fun i hi => (c4 i hi).trans ?_⟩
    constructor
    · rintro ⟨h1, h2⟩
      have := (i3 (i + 1) h1).mp h2
      rwa [Nat.add_right_comm] at this
    · rintro ⟨h1, h2⟩
      refine ⟨by omega, (i3 (i + 1) (by omega)).mpr ?_⟩
      rw [Nat.add_right_comm]
      exact ⟨h1, h2⟩

end BlockAckWindow

structure Scores (w : BlockAckWindow) (base : ℕ) (received : List ℕ) : Prop where
  start : w.winStart = base % 4096
  head : w.head < w.winSize
  bits : ∀ i < w.winSize, (w.get i ↔ base + i ∈ received)
  below : ∀ n ∈ received, n < base + w.winSize
  near : ∀ n ∈ received, n < base + 4096

namespace Scores
variable {w : BlockAckWindow} {base : ℕ} {received : List ℕ}

theorem init {startingSeq size : ℕ} (hs : startingSeq < 4096) (hb : 1 ≤ size) :
    Scores (.init startingSeq size) startingSeq [] := by
  have hsize : (BlockAckWindow.init startingSeq size).winSize = size := List.length_replicate ..
  refine ⟨(Nat.mod_eq_of_lt hs).symm, ?_, fun i hi => ?_, nofun, nofun⟩
  · rw [hsize]
    exact hb
  · simp [BlockAckWindow.get, BlockAckWindow.init, List.getD_eq_getElem?_getD,
      List.getElem?_replicate]
    split_ifs <;> rfl

theorem mark (h : Scores w base received) {d : ℕ} (hd : d < w.winSize) (hd' : d < 4096) :
    Scores (w.mark d) base (received ++ [base + d]) where
  start := h.start
  head := by
    rw [BlockAckWindow.winSize_mark]
    exact h.head
  bits i hi := by
    rw [BlockAckWindow.winSize_mark] at hi
    have heq : base + i = base + d ↔ i = d := by omega
    rw [BlockAckWindow.get_mark hi hd, h.bits i hi, List.mem_append, List.mem_singleton, heq,
      or_comm]
  below n hn := by
    rw [BlockAckWindow.winSize_mark]
    rcases List.mem_append.mp hn with hn | hn
    · exact h.below n hn
    · rw [List.mem_singleton.mp hn]
      omega
  near n hn := by
    rcases List.mem_append.mp hn with hn | hn
    · exact h.near n hn
    · rw [List.mem_singleton.mp hn]
      omega

theorem reset (h : Scores w base received) {count : ℕ} (hc : w.winSize ≤ count) :
    Scores (w.reset ((base + count) % 4096)) (base + count) received := by
  have hsize : (w.reset ((base + count) % 4096)).winSize = w.winSize := List.length_replicate ..
  refine ⟨rfl, ?_, fun i hi => ?_, fun n hn => ?_, fun n hn => ?_⟩
  · rw [hsize]
    exact (Nat.zero_le _).trans_lt h.head
  · have hout : base + count + i ∉ received := fun hm => by
      have := h.below _ hm
      omega
    have hfalse : (w.reset ((base + count) % 4096)).get i = false := by
      simp [BlockAckWindow.get, BlockAckWindow.reset, BlockAckWindow.init,
        List.getD_eq_getElem?_getD, List.getElem?_replicate]
      split_ifs <;> rfl
    rw [hfalse]
    simpa using hout
  · have := h.below n hn
    omega
  · have := h.near n hn
    omega

theorem advance (h : Scores w base received) (count : ℕ) :
    Scores (w.advance count) (base + count) received ∧ (w.advance count).winSize = w.winSize := by
  have hstart : (w.winStart + count) % 4096 = (base + count) % 4096 := by
    rw [h.start, Nat.mod_add_mod]
  unfold BlockAckWindow.advance
  rw [hstart]
  split_ifs with hc
  · exact ⟨h.reset hc, List.length_replicate ..⟩
  · obtain ⟨c1, c2, c3⟩ := BlockAckWindow.clearHead_iterate h.head count
    refine ⟨⟨rfl, c2.trans_eq c1.symm, fun i hi => ?_, fun n hn => ?_, fun n hn => ?_⟩, c1⟩
    · have hi' : i < w.winSize := hi.trans_eq c1
      refine (c3 i hi').trans ?_
      have hassoc : base + count + i = base + (i + count) := by omega
      rw [hassoc]
      constructor
      · rintro ⟨h1, h2⟩
        exact (h.bits _ h1).mp h2
      · intro hm
        have := h.below _ hm
        exact ⟨by omega, (h.bits _ (by omega)).mpr hm⟩
    · have h1 := h.below n hn
      show n < base + count + (BlockAckWindow.clearHead^[count] w).winSize
      omega
    · have := h.near n hn
      omega

end Scores

namespace Recipient

theorem scoreboard_mpdu (a : RecipientBlockAckAgreement ℕ) (seq n : ℕ) :
    (a.notifyReceivedMpdu seq n).scoreboard = a.scoreboard.notifyReceivedMpdu seq := by
  unfold RecipientBlockAckAgreement.notifyReceivedMpdu
  dsimp only
  split_ifs <;> rfl

theorem scoreboard_bar (a : RecipientBlockAckAgreement ℕ) (ssn : ℕ) :
    (a.notifyReceivedBar ssn).scoreboard = a.scoreboard.notifyReceivedBar ssn := by
  unfold RecipientBlockAckAgreement.notifyReceivedBar
  dsimp only
  split_ifs <;> rfl

def Scored (s : Recipient) : Prop := Scores s.rx.scoreboard s.scoreBase s.received

theorem getDistance_residue (base d : ℕ) (hd : d < 4096) :
    getDistance ((base + d) % 4096) (base % 4096) = d := by
  rw [getDistance_eq (Nat.mod_lt _ (by omega)), forward_residue base hd]

theorem Scored.receive {s : Recipient} (h : Scored s) {rx : RecipientBlockAckAgreement ℕ}
    {arrived : List ℕ} {k : ℕ} (hk : k < 4096)
    (hw : Scores rx.scoreboard (s.scoreBase + k) (s.received ++ arrived)) :
    Scored (s.receive rx arrived) := by
  have hdist : getDistance rx.scoreboard.winStart s.rx.scoreboard.winStart = k := by
    rw [hw.start, h.start, getDistance_residue _ _ hk]
  show Scores rx.scoreboard
    (s.scoreBase + getDistance rx.scoreboard.winStart s.rx.scoreboard.winStart) _
  rw [hdist]
  exact hw

theorem Scored.distance {s : Recipient} (h : Scored s) {seq : ℕ} (hs : seq < 4096) :
    ∃ d < 4096, (s.scoreBase + d) % 4096 = seq ∧
      getDistance seq s.rx.scoreboard.winStart = d := by
  refine ⟨_, forward_lt (by omega) _ _, residue_forward s.scoreBase hs, ?_⟩
  rw [h.start, getDistance_eq (Nat.mod_lt _ (by omega))]

theorem Scored.mpdu {s : Recipient} (h : Scored s) {seq : ℕ} (hs : seq < 4096) :
    Scored (next s (.mpdu seq)) := by
  obtain ⟨d, hd, _, hdist⟩ := h.distance hs
  have hsize := h.head
  have harr : s.arrival seq =
      if d < s.rx.scoreboard.winSize ∨ d < 2048 then [s.scoreBase + d] else [] := by
    unfold arrival
    rw [hdist]
  unfold next
  dsimp only
  by_cases hin : d < s.rx.scoreboard.winSize
  · refine h.receive (k := 0) (by omega) ?_
    rw [scoreboard_mpdu, BlockAckWindow.notifyReceivedMpdu, hdist, Nat.mod_eq_of_lt (by omega),
      if_pos hin, harr, if_pos (.inl hin), Nat.add_zero]
    exact Scores.mark h hin hd
  · by_cases hhalf : d < 2048
    · obtain ⟨hadv, hsize'⟩ := Scores.advance h (d - s.rx.scoreboard.winSize + 1)
      refine h.receive (k := d - s.rx.scoreboard.winSize + 1) (by omega) ?_
      rw [scoreboard_mpdu, BlockAckWindow.notifyReceivedMpdu, hdist, Nat.mod_eq_of_lt (by omega),
        if_neg hin, if_pos hhalf, harr, if_pos (.inr hhalf)]
      have hend := hadv.mark (d := s.rx.scoreboard.winSize - 1) (by omega) (by omega)
      rwa [show s.scoreBase + (d - s.rx.scoreboard.winSize + 1) + (s.rx.scoreboard.winSize - 1) =
        s.scoreBase + d by omega] at hend
    · refine h.receive (k := 0) (by omega) ?_
      rw [scoreboard_mpdu, BlockAckWindow.notifyReceivedMpdu, hdist, Nat.mod_eq_of_lt (by omega),
        if_neg hin, if_neg hhalf, harr, if_neg (by omega), List.append_nil]
      exact h

theorem Scored.bar {s : Recipient} (h : Scored s) {ssn : ℕ} (hs : ssn < 4096) :
    Scored (next s (.bar ssn)) := by
  obtain ⟨d, hd, hssn, hdist⟩ := h.distance hs
  unfold next
  dsimp only
  have hboard : (s.rx.notifyReceivedBar ssn).scoreboard =
      if d > 0 ∧ d < s.rx.scoreboard.winSize then s.rx.scoreboard.advance d
      else if d > 0 ∧ d < 2048 then s.rx.scoreboard.reset ssn else s.rx.scoreboard := by
    rw [scoreboard_bar, BlockAckWindow.notifyReceivedBar, hdist, Nat.mod_eq_of_lt (by omega)]
  by_cases hin : d > 0 ∧ d < s.rx.scoreboard.winSize
  · refine h.receive (k := d) hd ?_
    rw [hboard, if_pos hin, List.append_nil]
    exact (Scores.advance h d).1
  · by_cases hhalf : d > 0 ∧ d < 2048
    · refine h.receive (k := d) hd ?_
      rw [hboard, if_neg hin, if_pos hhalf, List.append_nil, ← hssn]
      exact Scores.reset h (by omega)
    · refine h.receive (k := 0) (by omega) ?_
      rw [hboard, if_neg hin, if_neg hhalf, List.append_nil]
      exact h

theorem Scored.of_reaches {bufferSize startingSeq : ℕ} (hb : 1 ≤ bufferSize)
    (hs : startingSeq < 4096) {es : List BaEvent} {s : Recipient}
    (h : machine.Reaches (new bufferSize startingSeq) es s) : Scored s := by
  have h0 : Scored (new bufferSize startingSeq) := Scores.init hs hb
  refine Machine.Reaches.invariant (P := Scored) h0 ?_ h
  intro s e hs he
  cases e with
  | mpdu seq => exact hs.mpdu he
  | bar ssn => exact hs.bar he

end Recipient

/-! ### The bitmap -/

namespace CtrlBAckResponseHeader
variable {h : CtrlBAckResponseHeader} {index : ℕ}

def put (h : CtrlBAckResponseHeader) (index : ℕ) (info : BaInfoInstance) :
    CtrlBAckResponseHeader := { h with baInfo := h.baInfo.set index info }

theorem info_put (hi : index < h.baInfo.length) (info : BaInfoInstance) :
    (h.put index info).info index = info := by
  simp [CtrlBAckResponseHeader.info, put, List.getD_eq_getElem?_getD, hi]

theorem info_put_ne {i : ℕ} (hi : i ≠ index) (info : BaInfoInstance) :
    (h.put index info).info i = h.info i := by
  simp [CtrlBAckResponseHeader.info, put, List.getD_eq_getElem?_getD, Ne.symm hi]

theorem modifyInfo_put (info : BaInfoInstance) (f : BaInfoInstance → BaInfoInstance) :
    (h.put index info).modifyInfo index f = h.put index (f info) := by
  have hlist : ∀ (l : List BaInfoInstance) (i : ℕ),
      (l.set i info).modify i f = l.set i (f info) := by
    intro l
    induction l with
    | nil => simp
    | cons a l ih =>
      intro i
      cases i with
      | zero => simp
      | succ i => simpa using ih i
  unfold modifyInfo put
  dsimp only
  rw [hlist]

theorem modifyInfo_eq_put (hi : index < h.baInfo.length) (f : BaInfoInstance → BaInfoInstance) :
    h.modifyInfo index f = h.put index (f (h.info index)) := by
  have hself : h.put index (h.info index) = h := by
    obtain ⟨policy, type, tid, infos⟩ := h
    have hi' : index < infos.length := hi
    simp [put, CtrlBAckResponseHeader.info, List.getD_eq_getElem?_getD, hi']
  have hput : (h.put index (h.info index)).modifyInfo index f = h.put index (f (h.info index)) :=
    modifyInfo_put _ _
  rwa [hself] at hput

def Compressed (h : CtrlBAckResponseHeader) : Prop :=
  h.baType.variant = .compressed ∨ h.baType.variant = .extendedCompressed ∨
    h.baType.variant = .multiSta

theorem isInBitmap_iff (hc : h.Compressed) {seq : ℕ} (hss : (h.info index).startingSeq < 4096) :
    h.isInBitmap seq index ↔
      forward 4096 seq (h.info index).startingSeq < h.len index * 8 := by
  have hn : h.nAckedMpdus index = h.len index * 8 := by
    unfold nAckedMpdus
    rcases hc with hc | hc | hc <;> rw [hc] <;> rfl
  unfold isInBitmap forward
  rw [decide_eq_true_iff, hn, Int.tmod_eq_emod_of_nonneg (by omega)]
  omega

theorem indexInBitmap_eq {info : BaInfoInstance} {seq : ℕ} (hs : seq < 4096)
    (hss : info.startingSeq < 4096) :
    info.indexInBitmap seq = forward 4096 seq info.startingSeq := by
  unfold BaInfoInstance.indexInBitmap forward
  split_ifs <;> omega

theorem setReceivedPacket_eq (hc : h.Compressed) {seq : ℕ} (hs : seq < 4096)
    (hss : (h.info index).startingSeq < 4096) :
    h.setReceivedPacket seq index =
      some (if forward 4096 seq (h.info index).startingSeq < h.len index * 8 then
        h.modifyInfo index fun info =>
          { info with bitmap := orBit info.bitmap (forward 4096 seq (h.info index).startingSeq) }
      else h) := by
  unfold setReceivedPacket
  rw [indexInBitmap_eq hs hss]
  by_cases hin : forward 4096 seq (h.info index).startingSeq < h.len index * 8
  · have hbit := (isInBitmap_iff hc hss).mpr hin
    rw [if_neg (not_not.mpr hbit), if_pos hin]
    rcases hc with hc | hc | hc <;> rw [hc] <;> rfl
  · have hbit : ¬ h.isInBitmap seq index := mt (isInBitmap_iff hc hss).mp hin
    rw [if_pos hbit, if_neg hin]

theorem isPacketReceived_iff (hc : h.Compressed)
    (hack : h.baType.variant = .multiSta → ¬ (h.info index).getAckType) {seq : ℕ} (hs : seq < 4096)
    (hss : (h.info index).startingSeq < 4096) (hin : h.isInBitmap seq index) :
    h.isPacketReceived seq index = some true ↔
      bitAt (h.info index).bitmap (forward 4096 seq (h.info index).startingSeq) := by
  have hctx : ¬ (h.baType.variant = .multiSta ∧ (h.info index).getAckType ∧
      (h.info index).getTid = 14) := fun hx => hack hx.1 hx.2.1
  unfold isPacketReceived
  rw [if_neg hctx, if_neg (not_not.mpr hin), indexInBitmap_eq hs hss]
  unfold bitAt
  rw [← and_bit_ne_zero]
  rcases hc with hc | hc | hc <;> rw [hc] <;> simp

def enteredBits (w : BlockAckWindow) (len : ℕ) : ℕ → List ℕ
  | 0 => List.replicate len 0
  | n + 1 =>
      if w.get n ∧ n < len * 8 then orBit (enteredBits w len n) n else enteredBits w len n

theorem length_enteredBits (w : BlockAckWindow) (len n : ℕ) :
    (enteredBits w len n).length = len := by
  induction n with
  | zero => exact List.length_replicate ..
  | succ n ih =>
    unfold enteredBits
    split_ifs
    · rw [length_orBit, ih]
    · exact ih

theorem bitAt_enteredBits (w : BlockAckWindow) {len d : ℕ} (hd : d < len * 8) (n : ℕ) :
    bitAt (enteredBits w len n) d ↔ d < n ∧ w.get d := by
  induction n with
  | zero => simp [enteredBits, bitAt_replicate]
  | succ n ih =>
    unfold enteredBits
    split_ifs with hn
    · rw [bitAt_orBit (by rw [length_enteredBits]; omega), ih]
      constructor
      · rintro (rfl | ⟨h1, h2⟩)
        · exact ⟨by omega, hn.1⟩
        · exact ⟨by omega, h2⟩
      · rintro ⟨h1, h2⟩
        by_cases he : n = d
        · exact .inl he
        · exact .inr ⟨by omega, h2⟩
    · rw [ih]
      constructor
      · rintro ⟨h1, h2⟩
        exact ⟨by omega, h2⟩
      · rintro ⟨h1, h2⟩
        refine ⟨?_, h2⟩
        by_contra hge
        obtain rfl : d = n := by omega
        exact hn ⟨h2, hd⟩

def filledInfo (w : BlockAckWindow) (len n : ℕ) (info : BaInfoInstance) : BaInfoInstance :=
  { info with startingSeq := w.winStart, bitmap := enteredBits w len n }

theorem fillBlockAckBitmap_eq (hc : h.Compressed) (hi : index < h.baInfo.length)
    {w : BlockAckWindow} (hw : w.winStart < 4096) (hbits : ∀ i < w.winSize, w.get i → i < 4096) :
    h.fillBlockAckBitmap w index =
      some (h.put index (filledInfo w (h.len index) w.winSize (h.info index))) := by
  have hrun : ∀ n ≤ w.winSize, (List.range n).foldlM
      (fun h i => if w.get i then h.setReceivedPacket ((w.winStart + i) % 4096) index else some h)
      ((h.setStartingSequence w.winStart index).resetBitmap index) =
      some (h.put index (filledInfo w (h.len index) n (h.info index))) := by
    intro n hn
    induction n with
    | zero =>
      unfold resetBitmap setStartingSequence
      rw [modifyInfo_eq_put hi, modifyInfo_put]
      rfl
    | succ n ih =>
      rw [List.range_succ, List.foldlM_append, ih (by omega)]
      have hinfo := info_put hi (filledInfo w (h.len index) n (h.info index))
      have hss : ((h.put index (filledInfo w (h.len index) n (h.info index))).info
          index).startingSeq < 4096 := by
        rw [hinfo]
        exact hw
      have hlen : (h.put index (filledInfo w (h.len index) n (h.info index))).len index =
        h.len index := rfl
      have hc' : (h.put index (filledInfo w (h.len index) n (h.info index))).Compressed := hc
      simp only [Option.bind_eq_bind, Option.bind_some, List.foldlM_cons, List.foldlM_nil]
      by_cases hg : w.get n
      · have hn' := hbits n (by omega) hg
        have hfor : forward 4096 ((w.winStart + n) % 4096) w.winStart = n := by
          have := forward_residue w.winStart hn'
          rwa [Nat.mod_eq_of_lt hw] at this
        rw [if_pos hg, setReceivedPacket_eq hc' (Nat.mod_lt _ (by omega)) hss, hinfo, hlen]
        simp only [filledInfo, hfor, modifyInfo_put, Option.bind_some, Option.pure_def, enteredBits,
          hg, true_and]
        split_ifs <;> rfl
      · rw [if_neg hg]
        simp [filledInfo, enteredBits, hg]
  unfold fillBlockAckBitmap
  have := hrun w.winSize le_rfl
  rcases hc with hc | hc | hc <;> rw [hc] <;> exact this

end CtrlBAckResponseHeader

namespace Recipient
open CtrlBAckResponseHeader

/-- An MPDU with this sequence number was received within the current scoreboard window. -/
def ReceivedInWindow (s : Recipient) (seq : ℕ) : Prop :=
  ∃ n ∈ s.received, s.scoreBase ≤ n ∧ n < s.scoreBase + s.rx.scoreboard.winSize ∧ n % 4096 = seq

/-- A sequence number of the bitmap is reported exactly when it was received. -/
def ReportedBy (s : Recipient) (h : CtrlBAckResponseHeader) (index : ℕ) : Prop :=
  ∀ seq < 4096, h.isInBitmap seq index →
    (h.isPacketReceived seq index = some true ↔ s.ReceivedInWindow seq)

theorem Scored.winStart_lt {s : Recipient} (h : Scored s) : s.rx.scoreboard.winStart < 4096 := by
  rw [h.start]
  exact Nat.mod_lt _ (by omega)

theorem Scored.get_lt {s : Recipient} (h : Scored s) :
    ∀ i < s.rx.scoreboard.winSize, s.rx.scoreboard.get i → i < 4096 := by
  intro i hi hg
  have := h.near _ ((h.bits i hi).mp hg)
  omega

theorem Scored.reportedBy {s : Recipient} (hs : Scored s) {h : CtrlBAckResponseHeader} {index : ℕ}
    (hc : h.Compressed) (hack : h.baType.variant = .multiSta → ¬ (h.info index).getAckType)
    (hstart : (h.info index).startingSeq = s.rx.scoreboard.winStart)
    (hbits : (h.info index).bitmap =
      enteredBits s.rx.scoreboard (h.len index) s.rx.scoreboard.winSize) :
    s.ReportedBy h index := by
  intro seq hseq hin
  have hlt : (h.info index).startingSeq < 4096 := by
    rw [hstart]
    exact hs.winStart_lt
  have hd := (isInBitmap_iff hc hlt).mp hin
  rw [isPacketReceived_iff hc hack hseq hlt hin, hbits, bitAt_enteredBits _ hd, hstart]
  have hres := residue_forward s.scoreBase hseq
  rw [← hs.start] at hres
  have hturn : forward 4096 seq s.rx.scoreboard.winStart < 4096 := forward_lt (by omega) _ _
  generalize forward 4096 seq s.rx.scoreboard.winStart = d at hres hturn
  constructor
  · rintro ⟨h1, h2⟩
    exact ⟨s.scoreBase + d, (hs.bits d h1).mp h2, by omega, by omega, hres⟩
  · rintro ⟨n, hn, h1, h2, h3⟩
    have hnear := hs.near n hn
    obtain rfl : n = s.scoreBase + d := by omega
    exact ⟨by omega, (hs.bits d (by omega)).mpr hn⟩

/-- The BlockAcks that the recipient can send: the compressed ones with a bitmap of 8 or 32
bytes, and any subfield in the block acknowledgement context of a Multi-STA one. -/
structure AcksExactly (s : Recipient) : Prop where
  one : ∀ type ∈ [BlockAckType.mk .compressed [8], ⟨.compressed, [32]⟩, ⟨.extendedCompressed, [8]⟩],
    ∀ policy, ∀ tid < 16, ∃ h bytes h',
      ({ ofType type with baAckPolicy := policy }.setTidInfo tid 0).fillBlockAckBitmap
        s.rx.scoreboard 0 = some h ∧
      h.serialize = some bytes ∧ deserialize bytes = some h' ∧ s.ReportedBy h' 0
  multiSta : ∀ (h : CtrlBAckResponseHeader) (index : ℕ), h.baType.variant = .multiSta →
    index < h.baInfo.length →
    (h.info index).aidTidInfo < 65536 → (h.info index).getAid11 ≠ 2045 →
    ¬ (h.info index).getAckType → (h.info index).getTid < 8 → Announced .multiSta (h.len index) →
    (∀ i < h.baInfo.length, i ≠ index → SoundInfo (h.len i) (h.info i)) →
    ∃ h₁ bytes h', h.fillBlockAckBitmap s.rx.scoreboard index = some h₁ ∧
      h₁.serialize = some bytes ∧ deserialize bytes = some h' ∧ s.ReportedBy h' index

theorem Scored.one {s : Recipient} (hs : Scored s) {variant : BlockAckVariant} {len : ℕ}
    (hv : variant = .compressed ∨ variant = .extendedCompressed) (hl : Announced variant len)
    (policy : Bool) {tid : ℕ} (ht : tid < 16) :
    ∃ h bytes h',
      ({ ofType ⟨variant, [len]⟩ with baAckPolicy := policy }.setTidInfo tid 0).fillBlockAckBitmap
        s.rx.scoreboard 0 = some h ∧
      h.serialize = some bytes ∧ deserialize bytes = some h' ∧ s.ReportedBy h' 0 := by
  have hne : variant ≠ .multiSta := by rcases hv with rfl | rfl <;> decide
  have hset : ({ ofType ⟨variant, [len]⟩ with baAckPolicy := policy }.setTidInfo tid 0) =
      ⟨policy, ⟨variant, [len]⟩, tid, [{ bitmap := List.replicate len 0 }]⟩ := by
    unfold setTidInfo
    exact if_pos hne
  rw [hset]
  have hc : Compressed ⟨policy, ⟨variant, [len]⟩, tid, [{ bitmap := List.replicate len 0 }]⟩ :=
    hv.imp_right .inl
  have hfill := fillBlockAckBitmap_eq hc (Nat.zero_lt_one) hs.winStart_lt hs.get_lt
  have hsound : SoundBitmap variant len
      { startingSeq := s.rx.scoreboard.winStart
        bitmap := enteredBits s.rx.scoreboard len s.rx.scoreboard.winSize } :=
    ⟨hs.winStart_lt, length_enteredBits _ _ _, hl⟩
  obtain ⟨bytes, hb, hd⟩ := deserialize_one (h := CtrlBAckResponseHeader.put
    ⟨policy, ⟨variant, [len]⟩, tid, [{ bitmap := List.replicate len 0 }]⟩ 0 _) ht hv rfl rfl hsound
  exact ⟨_, bytes, _, hfill, hb, hd, hs.reportedBy hc (fun he => absurd he hne) rfl rfl⟩

theorem Scored.multiSta {s : Recipient} (hs : Scored s) {h : CtrlBAckResponseHeader} {index : ℕ}
    (hv : h.baType.variant = .multiSta) (hi : index < h.baInfo.length)
    (hinfo : (h.info index).aidTidInfo < 65536) (haid : (h.info index).getAid11 ≠ 2045)
    (hack : ¬ (h.info index).getAckType) (htid : (h.info index).getTid < 8)
    (hl : Announced .multiSta (h.len index))
    (hothers : ∀ i < h.baInfo.length, i ≠ index → SoundInfo (h.len i) (h.info i)) :
    ∃ h₁ bytes h', h.fillBlockAckBitmap s.rx.scoreboard index = some h₁ ∧
      h₁.serialize = some bytes ∧ deserialize bytes = some h' ∧ s.ReportedBy h' index := by
  have hfill := fillBlockAckBitmap_eq (.inr (.inr hv)) hi hs.winStart_lt hs.get_lt
  generalize hnew : filledInfo s.rx.scoreboard (h.len index) s.rx.scoreboard.winSize
    (h.info index) = info at hfill
  have hlen : (h.put index info).baInfo.length = h.baInfo.length := List.length_set ..
  have hget := info_put hi info
  have hsub : info.aidTidInfo = (h.info index).aidTidInfo := by
    rw [← hnew]
    rfl
  have hfields : info.getAid11 = (h.info index).getAid11 ∧
      info.getAckType = (h.info index).getAckType ∧ info.getTid = (h.info index).getTid := by
    unfold BaInfoInstance.getAid11 BaInfoInstance.getAckType BaInfoInstance.getTid
    rw [hsub]
    exact ⟨rfl, rfl, rfl⟩
  obtain ⟨f1, f2, f3⟩ := hfields
  have hsound : ∀ i < (h.put index info).baInfo.length,
      SoundInfo ((h.put index info).len i) ((h.put index info).info i) := by
    intro i hlt
    rw [hlen] at hlt
    by_cases he : i = index
    · subst he
      rw [hget]
      refine ⟨by rw [hsub]; exact hinfo, .inl ⟨by rw [f1]; exact haid, ⟨by rw [f2]; exact hack,
        by rw [f3]; exact htid⟩, ?_⟩⟩
      rw [← hnew]
      exact ⟨hs.winStart_lt, length_enteredBits _ _ _, hl⟩
    · rw [info_put_ne he]
      exact hothers i hlt he
  obtain ⟨bytes, hb, hd⟩ := deserialize_multiSta (h := h.put index info) hv hsound
  rw [hlen] at hd
  have hdecoded : decoded info =
      { aidTidInfo := info.aidTidInfo, startingSeq := info.startingSeq, bitmap := info.bitmap } :=
    if_pos (by rw [f1]; exact haid)
  have hread : ((h.put index info).readBack h.baInfo.length).info index =
      { aidTidInfo := info.aidTidInfo, startingSeq := info.startingSeq,
        bitmap := info.bitmap } := by
    rw [info_readBack _ hi, hget, hdecoded]
  have hreadLen : ((h.put index info).readBack h.baInfo.length).len index = h.len index := by
    rw [len_readBack _ hi, decodedLen, hget, if_pos (by rw [f1]; exact haid)]
    rfl
  refine ⟨_, bytes, _, hfill, hb, hd, hs.reportedBy (.inr (.inr rfl)) (fun _ => ?_) ?_ ?_⟩
  · rw [hread]
    show ¬ info.getAckType
    rw [f2]
    exact hack
  · rw [hread, ← hnew]
    rfl
  · rw [hread, hreadLen, ← hnew]
    rfl

theorem block_ack_reports_exactly {bufferSize startingSeq : ℕ} (hb : 1 ≤ bufferSize)
    (hs : startingSeq < 4096) {es : List BaEvent} {s : Recipient}
    (h : machine.Reaches (new bufferSize startingSeq) es s) : AcksExactly s := by
  have hscored := Scored.of_reaches hb hs h
  refine ⟨fun type ht policy tid htid => ?_, fun h index hv hi h1 h2 h3 h4 h5 h6 =>
    hscored.multiSta hv hi h1 h2 h3 h4 h5 h6⟩
  simp only [List.mem_cons, List.not_mem_nil, or_false] at ht
  rcases ht with rfl | rfl | rfl
  · exact hscored.one (.inl rfl) (.inl rfl) policy htid
  · exact hscored.one (.inl rfl) (.inr rfl) policy htid
  · exact hscored.one (.inr rfl) rfl policy htid

/-- MPDUs on both sides of the wrap, a BAR, and an MPDU beyond the scoreboard. -/
theorem block_ack_reports_exactly_wrapped :
    AcksExactly (machine.exec (new 64 4090)
      [.mpdu 4092, .mpdu 2, .bar 4091, .mpdu 200, .mpdu 4080, .mpdu 190]) :=
  block_ack_reports_exactly (by decide) (by decide) (Machine.Permits.reaches (by decide))

end Recipient
end NetGymSim.Wifi

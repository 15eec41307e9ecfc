import NetGymSim.Lte.RlcUmReordering
import NetGymSim.Lte.RlcUmSegmentation

/-!
# PDUs without loss and in order

A receiver that gets the PDUs of a sender without loss and in order reassembles each of them at
once. It delivers the SDUs whose last byte has been sent.
-/

namespace NetGymSim.Lte
open NetGymSim.Lib
namespace LteRlcUm

/-! ### What reassembling leaves to be done -/

section Reassembly
variable {s t : LteRlcUm} {n : ℕ} {packet : List ℕ}

theorem deliver_reassembler (s : LteRlcUm) (n : ℕ) (packet : List ℕ) :
    (s.deliver n packet).reassembler = (s.reassembleAndDeliver packet).reassembler := rfl

theorem reassembleAndDeliver_congr (h : t.reassembler = s.reassembler) (packet : List ℕ) :
    (t.reassembleAndDeliver packet).reassembler = (s.reassembleAndDeliver packet).reassembler := by
  unfold reassembleAndDeliver
  cases ({} : LteRlcHeader).deserialize packet with
  | none => exact h
  | some read =>
    obtain ⟨header, data⟩ := read
    show t.reassembler.reassemble _ _ _ _ _ _ = s.reassembler.reassemble _ _ _ _ _ _
    rw [h]

theorem setUhBase_reassembler (s : LteRlcUm) : s.setUhBase.reassembler = s.reassembler := by
  unfold setUhBase
  generalize s.vrUh.sub umWindowSize = base
  rfl

theorem arrived_reassembler : (s.arrived n packet).reassembler = s.reassembler := by
  unfold arrived setReceiveBases
  generalize s.vrUh.sub umWindowSize = base
  rfl

theorem reassembleKeys_reassembler {keys : List ℕ} (hkeys : ∀ n ∈ keys, n < 1024)
    (hinside : ∀ n ∈ keys, (s.rxBuffer n).isSome → s.offset n < umWindowSize) :
    (reassembleKeys keys s).reassembler = s.reassembler := by
  induction keys with
  | nil => rfl
  | cons k keys ih =>
    unfold reassembleKeys
    cases hentry : s.rxBuffer k with
    | none =>
      exact ih (fun n hn => hkeys n (List.mem_cons_of_mem _ hn))
        fun n hn => hinside n (List.mem_cons_of_mem _ hn)
    | some packet =>
      have hvalue : (SequenceNumber10.ofValue k).value = k :=
        Nat.mod_eq_of_lt (hkeys k List.mem_cons_self)
      have hk := hinside k List.mem_cons_self (by rw [hentry]; rfl)
      have hin := (s.isInside_iff (.ofValue k)).mpr (by rwa [hvalue])
      dsimp only
      rw [if_pos hin]
      exact s.setUhBase_reassembler

theorem firstMissing_of_none (h : s.rxBuffer n = none) (fuel : ℕ) : s.firstMissing fuel n = n := by
  cases fuel with
  | zero => rfl
  | succ fuel =>
    unfold firstMissing
    rw [h]
    rfl

theorem reassembleSnInterval_one (fuel : ℕ) {sn high : SequenceNumber10}
    (hb : sn.modulusBase = high.modulusBase) (hnext : high.dist = sn.dist + 1) :
    reassembleSnInterval (fuel + 2) s sn high = s.deliverAt sn.value := by
  have hhigh := high.dist_lt
  have hsucc : sn.succ.dist = sn.dist + 1 := SequenceNumber10.dist_succ (by omega)
  have hgo : sn.lt high = true := (SequenceNumber10.lt_iff hb).mpr (by omega)
  have hstop : ¬ sn.succ.lt high = true := by
    intro hlt
    have hless := (SequenceNumber10.lt_iff (s := sn.succ) hb).mp hlt
    omega
  rw [reassembleSnInterval, if_pos hgo, reassembleSnInterval, if_neg hstop]

theorem deliverFront_one (hentry : t.rxBuffer t.vrUr.value = some packet)
    (hnext : t.rxBuffer (t.vrUr.value + 1) = none) (hdist : t.vrUr.dist + 1 < 1024) :
    t.deliverFront.reassembler = (t.reassembleAndDeliver packet).reassembler := by
  have hsome : (t.rxBuffer t.vrUr.value).isSome = true := by
    rw [hentry]
    rfl
  unfold deliverFront
  rw [if_pos hsome]
  dsimp only
  rw [firstMissing_of_none hnext]
  have hassign : t.vrUr.assign (t.vrUr.value + 1) = t.vrUr.add 1 := rfl
  rw [hassign]
  have hnew := SequenceNumber10.dist_add hdist
  have hone := @reassembleSnInterval_one { t with vrUr := t.vrUr.add 1 } 1022 t.vrUr
    (t.vrUr.add 1) rfl hnew
  have hfuel : 1022 + 2 = 1024 := rfl
  rw [hfuel] at hone
  rw [hone]
  unfold deliverAt
  dsimp only
  rw [hentry]
  show (deliver { t with vrUr := t.vrUr.add 1 } t.vrUr.value packet).reassembler = _
  rw [deliver_reassembler]
  apply reassembleAndDeliver_congr
  rfl

theorem setBases_reassembler (s : LteRlcUm) : s.setBases.reassembler = s.reassembler := by
  unfold setBases
  rfl

theorem stopReordering_reassembler (s : LteRlcUm) :
    s.stopReordering.reassembler = s.reassembler := by
  unfold stopReordering
  split_ifs <;> rfl

theorem startReordering_reassembler (s : LteRlcUm) :
    s.startReordering.reassembler = s.reassembler := by
  unfold startReordering
  split_ifs <;> rfl

end Reassembly

/-! ### A receiver without loss -/

section Receive
variable {r : LteRlcUm} {n : ℕ} {packet : List ℕ}

structure InSync (r : LteRlcUm) (n : ℕ) : Prop where
  vrUr : r.vrUr.value = n
  vrUh : r.vrUh.value = n
  rxBuffer : ∀ m, r.rxBuffer m = none
  stopped : r.reorderingTimer = false

theorem InSync.offset (h : InSync r n) : r.offset n = umWindowSize := by
  rw [← h.vrUh]
  exact r.offset_vrUh

theorem InSync.placeable (h : InSync r n) : r.Placeable n := by
  have hn := r.vrUr.value_lt
  have hoffset := h.offset
  rw [h.vrUr] at hn
  have hnone : ∀ m p, r.rxBuffer m ≠ some p := by
    intro m p hm
    rw [h.rxBuffer m] at hm
    cases hm
  have hstopped : ¬ r.reorderingTimer = true := by
    rw [h.stopped]
    exact Bool.false_ne_true
  refine ⟨⟨?_, fun m p hm => absurd hm (hnone m p), ?_, fun hrun => absurd hrun hstopped,
    fun hrun => absurd hrun hstopped⟩, hn, ?_⟩
  · rw [h.vrUr, hoffset]
  · rw [h.vrUr, hoffset]
    exact iff_of_false hstopped (lt_irrefl _)
  · rw [h.vrUr]

theorem InSync.placed_rxBuffer (h : InSync r n) (m : ℕ) :
    (r.placed n packet).rxBuffer m = if m = n then some packet else none := by
  rw [LteRlcUm.placed_rxBuffer, h.rxBuffer m]

theorem InSync.placed_offset (h : InSync r n) : (r.placed n packet).offset n < umWindowSize := by
  have hn := h.placeable.lt
  have hoffset := h.offset
  rw [placed_offset_outside (by rw [hoffset]; exact lt_irrefl _) hn, if_pos (by omega)]
  unfold umWindowSize
  omega

theorem InSync.front (h : InSync r n) : (r.placed n packet).front = n := by
  have hUr : (r.placed n packet).vrUr.value = n := h.vrUr
  unfold LteRlcUm.front
  rw [hUr, if_pos h.placed_offset]

theorem InSync.moved (h : InSync r n) {sn : SequenceNumber10} (hvalue : sn.value = n) :
    Moved (r.placed n packet) ((r.arrived n packet).moveWindow sn) := by
  have hoffset := h.offset
  exact h.placeable.moved_outside (by rw [hoffset]; exact lt_irrefl _) hvalue

theorem InSync.moved_rxBuffer (h : InSync r n) {u : LteRlcUm} (hm : Moved (r.placed n packet) u)
    (m : ℕ) : u.rxBuffer m = if m = n then some packet else none := by
  by_cases hmn : m = n
  · have hinside := @InSync.placed_offset r n packet h
    rw [hm.stay m fun hc => hc.2 (by rw [hmn]; exact hinside), h.placed_rxBuffer]
  · rw [if_neg hmn]
    apply hm.none
    rw [h.placed_rxBuffer, if_neg hmn]

theorem InSync.moveWindow_reassembler (h : InSync r n) {sn : SequenceNumber10}
    (hvalue : sn.value = n) :
    ((r.arrived n packet).moveWindow sn).reassembler = r.reassembler := by
  have hoffset := h.offset
  have hout : ¬ (r.arrived n packet).offset sn.value < umWindowSize := by
    rw [arrived_offset, hvalue, hoffset]
    exact lt_irrefl _
  have hUh : (sn.add 1).value = (r.placed n packet).vrUh.value := by
    rw [placed_vrUh_outside (by rw [hoffset]; exact lt_irrefl _), SequenceNumber10.add_value,
      hvalue]
  have hbuffer : (r.arrived n packet).setUhBase.rxBuffer = (r.placed n packet).rxBuffer := by
    rw [setUhBase_rxBuffer]
    rfl
  have hsame : (r.arrived n packet).setUhBase.reassembler = r.reassembler := by
    rw [setUhBase_reassembler, arrived_reassembler]
  have hentry : ∀ m, (r.arrived n packet).setUhBase.rxBuffer m =
      if m = n then some packet else none := by
    intro m
    rw [hbuffer, h.placed_rxBuffer]
  rw [moveWindow_outside hout]
  generalize (r.arrived n packet).setUhBase = w at hsame hentry ⊢
  have hwalk : ({ w with vrUh := sn.add 1 } : LteRlcUm).reassembleOutsideWindow.reassembler =
      r.reassembler := by
    unfold reassembleOutsideWindow
    have hkeys : ∀ m ∈ List.range 1024, m < 1024 := fun m hm => List.mem_range.mp hm
    generalize List.range 1024 = keys at hkeys ⊢
    rw [← hsame]
    apply reassembleKeys_reassembler (s := { w with vrUh := sn.add 1 }) hkeys
    intro m _ hsome
    have hm : m = n := by
      by_contra hne
      have hnone := hentry m
      rw [if_neg hne] at hnone
      rw [hnone] at hsome
      cases hsome
    rw [hm, @offset_congr (r.placed n packet) { w with vrUh := sn.add 1 } hUh]
    exact h.placed_offset
  dsimp only
  generalize ({ w with vrUh := sn.add 1 } : LteRlcUm).reassembleOutsideWindow = v at hwalk ⊢
  have hbased := v.setUhBase_reassembler
  generalize v.setUhBase = y at hbased ⊢
  rw [← hwalk, ← hbased]
  generalize y.vrUh.sub umWindowSize = start
  split_ifs <;> rfl

theorem InSync.placePdu (h : InSync r n) {sn : SequenceNumber10} (hvalue : sn.value = n) :
    InSync (r.setReceiveBases.placePdu sn packet) ((n + 1) % 1024) ∧
      (r.setReceiveBases.placePdu sn packet).reassembler =
        (r.reassembleAndDeliver packet).reassembler := by
  have hsync := @placePdu_eq r n packet sn hvalue
  have hmoved := @InSync.moved r n packet h sn hvalue
  have hbuffer := h.moved_rxBuffer hmoved
  have hsame := @InSync.moveWindow_reassembler r n packet h sn hvalue
  rw [hsync]
  generalize (r.arrived n packet).moveWindow sn = u at hmoved hbuffer hsame ⊢
  have hUr : u.vrUr.value = n := hmoved.vrUr.trans h.front
  have hentry : u.rxBuffer u.vrUr.value = some packet := by rw [hUr, hbuffer, if_pos rfl]
  have hnext : u.rxBuffer (u.vrUr.value + 1) = none := by rw [hUr, hbuffer, if_neg (by omega)]
  have hrun : u.Run (r.placed n packet).front 1 := by
    rw [h.front]
    refine ⟨fun j hj => ?_, ?_⟩
    · rw [hbuffer, if_pos (by omega)]
      rfl
    · rw [hbuffer, if_neg (by omega)]
  have hreassembled := (deliverFront_one hentry hnext (hmoved.room 1 hrun)).trans
    (reassembleAndDeliver_congr hsame packet)
  obtain ⟨len, hf⟩ := h.placeable.fronted hmoved
  have hlen : len = 1 := by
    have hend := hf.run.2
    rw [h.front, hbuffer] at hend
    split_ifs at hend with hzero
    by_contra hne
    have hmore := hf.run.1 1 (by omega)
    rw [h.front, hbuffer, if_neg (by omega)] at hmore
    cases hmore
  have hv := hf.vrUr
  have hle : u.deliverFront.offset u.deliverFront.vrUr.value ≤ umWindowSize := by
    rw [hf.offset]
    exact hf.offset_le
  have hoffset : u.deliverFront.offset u.deliverFront.vrUr.value = umWindowSize := by
    have hlast := @placed_offset_outside r n packet (by rw [h.offset]; exact lt_irrefl _) n
      h.placeable.lt
    rw [if_pos (by omega), Nat.add_sub_cancel_left] at hlast
    rw [hf.offset, h.front, hlast, hlen]
    rfl
  have hempty : ∀ m, u.deliverFront.rxBuffer m = none := by
    intro m
    rw [hf.rxBuffer, h.front, hlen, hbuffer]
    split_ifs
    · rfl
    · omega
    · rfl
  rw [h.front, hlen] at hv
  have hUh := hf.vrUh
  rw [placed_vrUh_outside (by rw [h.offset]; exact lt_irrefl _)] at hUh
  generalize u.deliverFront = v at hv hle hoffset hempty hUh hreassembled ⊢
  obtain ⟨hfront, hsound⟩ := timers_spec hle
  constructor
  · refine ⟨hfront.vrUr.trans hv, hfront.vrUh.trans hUh, fun m => ?_, ?_⟩
    · rw [hfront.rxBuffer, hempty]
    · by_contra hrun
      have hless := hsound.running.mp (by simpa using hrun)
      rw [hfront.offset, hfront.vrUr, hoffset] at hless
      exact lt_irrefl _ hless
  · rw [startReordering_reassembler, stopReordering_reassembler, setBases_reassembler,
      hreassembled]

theorem InSync.receive (h : InSync r n) {header : LteRlcHeader} {data : List ℕ}
    (hread : ({} : LteRlcHeader).deserialize packet = some (header, data))
    (hn : header.sequenceNumber = n) :
    InSync (r.doReceivePdu packet) ((n + 1) % 1024) ∧
      (r.doReceivePdu packet).reassembler =
        r.reassembler.reassemble true header.framingInfo n header.extensionBits
          header.lengthIndicators data := by
  have hlt := h.placeable.lt
  have hvalue : (SequenceNumber10.ofValue header.sequenceNumber).value = n := by
    rw [hn]
    exact Nat.mod_eq_of_lt hlt
  have hstart := r.sub_value
  have hreassembled : (r.reassembleAndDeliver packet).reassembler =
      r.reassembler.reassemble true header.framingInfo n header.extensionBits
        header.lengthIndicators data := by
    unfold reassembleAndDeliver
    rw [hread, ← hn]
  unfold doReceivePdu
  rw [hread]
  dsimp only
  generalize r.vrUh.sub umWindowSize = base at hstart ⊢
  generalize SequenceNumber10.ofValue header.sequenceNumber = sn at hvalue ⊢
  have hdiscarded := @discarded_iff r (sn.setModulusBase base) hstart
  have hkeep : ¬ r.Discards n := by
    unfold Discards
    rw [h.vrUr]
    omega
  rw [SequenceNumber10.setModulusBase_value, hvalue] at hdiscarded
  rw [if_neg fun hyes => hkeep (hdiscarded.mp hyes), ← hreassembled]
  exact h.placePdu hvalue

end Receive

/-! ### A new PDU -/

section Transmit
variable {s : LteRlcUm}

structure TxSound (s : LteRlcUm) : Prop where
  queued : ∀ t ∈ s.txBuffer, Queued t
  size : s.txBufferSize = (dataOf s.txBuffer).length

structure Sends (s t : LteRlcUm) (bytes : ℕ) (pdu : List ℕ) (pieces : List TxPdu) : Prop where
  cut : Cut s.txBuffer pieces t.txBuffer
  sound : TxSound t
  sequenceNumber : t.sequenceNumber = s.sequenceNumber.succ
  le : pdu.length ≤ bytes
  read : ∃ header, ({} : LteRlcHeader).deserialize pdu = some (header, dataOf pieces) ∧
    Heads pieces s.sequenceNumber.value header

theorem TxSound.sends (h : TxSound s) {bytes : ℕ} {pdu : List ℕ}
    (hpdu : (s.doNotifyTxOpportunity bytes).2 = some pdu) :
    ∃ pieces, Sends s (s.doNotifyTxOpportunity bytes).1 bytes pdu pieces := by
  unfold doNotifyTxOpportunity at hpdu ⊢
  split_ifs at hpdu ⊢ with hsmall
  obtain ⟨config, txBuffer, txBufferSize, sequenceNumber⟩ := s
  cases txBuffer with
  | nil => cases hpdu
  | cons first behind =>
    have hsize := h.size
    rw [dataOf_cons, List.length_append] at hsize
    dsimp only at hsize hpdu ⊢
    obtain ⟨pieces, hf⟩ := @fillDataField_filled LteRlcHeader _ ({} : LteRlcHeader) [] behind first
      (bytes - 2) 1 (txBufferSize - first.pdu.length) h.queued (by omega) (by omega)
    unfold takeDataField at hpdu ⊢
    dsimp only at hpdu ⊢
    generalize fillDataField ({} : LteRlcHeader) [] _ first (bytes - 2) 1 behind = f at hf hpdu ⊢
    have hdata : f.dataField = pieces := hf.dataField
    have hheads := newHeader_heads hf.header hdata hf.cut.pieces_ne_nil hf.short sequenceNumber
    have hlen := LteRlcHeader.length_serialize hheads.umdPdu
    have hfits := hf.fits
    rw [hheads.lengthIndicators, List.length_dropLast, lengths, List.length_map] at hlen
    rw [overhead_one] at hfits
    obtain rfl := Option.some.inj hpdu
    refine ⟨pieces, hf.cut, ⟨hf.cut.queued h.queued, hf.size⟩, rfl, ?_, ?_⟩
    · rw [List.length_append, hlen, hdata]
      omega
    · refine ⟨newHeader f sequenceNumber, ?_, hheads⟩
      rw [hdata]
      exact LteRlcHeader.deserialize_serialize hheads.umdPdu (dataOf pieces)

theorem doNotifyTxOpportunity_none {bytes : ℕ}
    (hpdu : (s.doNotifyTxOpportunity bytes).2 = none) :
    (s.doNotifyTxOpportunity bytes).1 = s := by
  unfold doNotifyTxOpportunity at hpdu ⊢
  split_ifs at hpdu ⊢
  · rfl
  · cases htx : s.txBuffer with
    | nil => rfl
    | cons first behind =>
      rw [htx] at hpdu
      cases hpdu

theorem TxSound.doTransmitPdcpPdu (h : TxSound s) {p : List ℕ} (hp : p ≠ []) :
    TxSound (s.doTransmitPdcpPdu p) := by
  unfold LteRlcUm.doTransmitPdcpPdu
  dsimp only
  split_ifs
  · refine ⟨?_, ?_⟩
    · intro t ht
      rcases List.mem_append.mp ht with ht | ht
      · exact h.queued t ht
      · rw [List.mem_singleton.mp ht]
        exact ⟨hp, .inl rfl⟩
    · show s.txBufferSize + p.length = (dataOf (s.txBuffer ++ [⟨p, .fullSdu⟩])).length
      rw [h.size, dataOf, dataOf, List.flatMap_append, List.length_append, List.flatMap_singleton]
  · exact ⟨h.queued, h.size⟩

/-! ### What receiving leaves alone -/

def txSide (s : LteRlcUm) : List TxPdu × ℕ × SequenceNumber10 :=
  (s.txBuffer, s.txBufferSize, s.sequenceNumber)

theorem TxSound.of_txSide {t : LteRlcUm} (h : TxSound s) (hside : t.txSide = s.txSide) :
    TxSound t := by
  simp only [txSide, Prod.mk.injEq] at hside
  obtain ⟨hbuffer, hsize, -⟩ := hside
  refine ⟨?_, ?_⟩
  · rw [hbuffer]
    exact h.queued
  · rw [hbuffer, hsize]
    exact h.size

theorem setUhBase_txSide (s : LteRlcUm) : s.setUhBase.txSide = s.txSide := by
  unfold setUhBase
  generalize s.vrUh.sub umWindowSize = base
  rfl

theorem deliver_txSide (s : LteRlcUm) (n : ℕ) (packet : List ℕ) :
    (s.deliver n packet).txSide = s.txSide := by
  unfold deliver reassembleAndDeliver
  cases ({} : LteRlcHeader).deserialize packet <;> rfl

theorem deliverAt_txSide (s : LteRlcUm) (n : ℕ) : (s.deliverAt n).txSide = s.txSide := by
  unfold deliverAt
  cases s.rxBuffer n with
  | none => rfl
  | some packet => exact s.deliver_txSide n packet

theorem reassembleKeys_txSide (keys : List ℕ) (s : LteRlcUm) :
    (reassembleKeys keys s).txSide = s.txSide := by
  induction keys generalizing s with
  | nil => rfl
  | cons k keys ih =>
    unfold reassembleKeys
    cases s.rxBuffer k with
    | none => exact ih s
    | some packet =>
      dsimp only
      split_ifs
      · exact s.setUhBase_txSide
      · rw [ih, deliver_txSide, setUhBase_txSide]

theorem reassembleSnInterval_txSide (fuel : ℕ) (s : LteRlcUm) (sn high : SequenceNumber10) :
    (reassembleSnInterval fuel s sn high).txSide = s.txSide := by
  induction fuel generalizing s sn with
  | zero => rfl
  | succ fuel ih =>
    unfold reassembleSnInterval
    split_ifs
    · rw [ih, deliverAt_txSide]
    · rfl

theorem moveWindow_txSide (s : LteRlcUm) (sn : SequenceNumber10) :
    (s.moveWindow sn).txSide = s.txSide := by
  by_cases hin : s.offset sn.value < umWindowSize
  · rw [moveWindow_inside hin, setUhBase_txSide]
  · have hbase := s.setUhBase_txSide
    rw [moveWindow_outside hin]
    generalize s.setUhBase = w at hbase ⊢
    have hwalk : ({ w with vrUh := sn.add 1 } : LteRlcUm).reassembleOutsideWindow.txSide =
        s.txSide := by
      unfold reassembleOutsideWindow
      generalize List.range 1024 = keys
      rw [reassembleKeys_txSide]
      exact hbase
    dsimp only
    generalize ({ w with vrUh := sn.add 1 } : LteRlcUm).reassembleOutsideWindow = v at hwalk ⊢
    have hbased := v.setUhBase_txSide
    generalize v.setUhBase = y at hbased ⊢
    rw [← hwalk, ← hbased]
    generalize y.vrUh.sub umWindowSize = start
    split_ifs <;> rfl

theorem deliverFront_txSide (s : LteRlcUm) : s.deliverFront.txSide = s.txSide := by
  unfold deliverFront
  dsimp only
  split_ifs
  · generalize s.vrUr.assign _ = sn
    rw [reassembleSnInterval_txSide]
    rfl
  · rfl

theorem startReordering_txSide (s : LteRlcUm) : s.startReordering.txSide = s.txSide := by
  unfold startReordering
  split_ifs <;> rfl

theorem stopReordering_txSide (s : LteRlcUm) : s.stopReordering.txSide = s.txSide := by
  unfold stopReordering
  split_ifs <;> rfl

theorem setBases_txSide (s : LteRlcUm) : s.setBases.txSide = s.txSide := by
  unfold setBases
  generalize s.vrUh.sub umWindowSize = base
  rfl

theorem setReceiveBases_txSide (s : LteRlcUm) : s.setReceiveBases.txSide = s.txSide := by
  unfold setReceiveBases
  generalize s.vrUh.sub umWindowSize = base
  rfl

theorem doReceivePdu_txSide (s : LteRlcUm) (packet : List ℕ) :
    (s.doReceivePdu packet).txSide = s.txSide := by
  have hbases := s.setReceiveBases_txSide
  unfold doReceivePdu
  cases ({} : LteRlcHeader).deserialize packet with
  | none => rfl
  | some read =>
    dsimp only
    generalize s.setReceiveBases = t at hbases ⊢
    generalize (SequenceNumber10.ofValue _).setModulusBase _ = sn
    split_ifs
    · exact hbases
    · unfold placePdu
      rw [startReordering_txSide, stopReordering_txSide, setBases_txSide, deliverFront_txSide,
        moveWindow_txSide]
      exact hbases

theorem expireReorderingTimer_txSide (s : LteRlcUm) :
    s.expireReorderingTimer.txSide = s.txSide := by
  unfold expireReorderingTimer
  dsimp only
  generalize s.skipReceived 1024 s.vrUx = sn
  have hwalk := reassembleSnInterval_txSide 1024 { s with reorderingTimer := false, vrUr := sn }
    s.vrUr sn
  generalize reassembleSnInterval 1024 _ _ _ = t at hwalk ⊢
  split_ifs
  · exact hwalk
  · exact hwalk

theorem expireRbsTimer_txSide (s : LteRlcUm) : s.expireRbsTimer.txSide = s.txSide := by
  unfold expireRbsTimer
  split_ifs <;> rfl

end Transmit

/-! ### A sender and its PDUs -/

structure Sending where
  entity : LteRlcUm
  accepted : List (List ℕ) := []
  pdus : List (List ℕ) := []

def accepts (s : LteRlcUm) : Event → List (List ℕ)
  | .transmitPdcpPdu p => if s.HasRoom p then [p] else []
  | _ => []

def emits (s : LteRlcUm) : Event → List (List ℕ)
  | .notifyTxOpportunity bytes => (s.doNotifyTxOpportunity bytes).2.toList
  | _ => []

namespace Sending

def next (l : Sending) (e : Event) : Sending where
  entity := l.entity.next e
  accepted := l.accepted ++ l.entity.accepts e
  pdus := l.pdus ++ l.entity.emits e

def initial (config : RlcUmConfig) : Sending := { entity := .initial config }

def receiver (config : RlcUmConfig) (l : Sending) : LteRlcUm :=
  l.pdus.foldl doReceivePdu (.initial config)

end Sending

def sending : Machine Sending Event := ⟨fun l e => machine.enabled l.entity e, Sending.next⟩

instance (l : Sending) (e : Event) : Decidable (sending.enabled l e) :=
  inferInstanceAs (Decidable (machine.enabled l.entity e))

def carried (pdu : List ℕ) : List ℕ :=
  match ({} : LteRlcHeader).deserialize pdu with
  | some (_, data) => data
  | none => []

def sentWhole : ℕ → List (List ℕ) → List (List ℕ)
  | _, [] => []
  | n, p :: sdus => if p.length ≤ n then p :: sentWhole (n - p.length) sdus else []

section Lossless
variable {config : RlcUmConfig} {l : Sending}

theorem sentWhole_append (sdus : List (List ℕ)) {rest : List (List ℕ)} {n : ℕ}
    (h : ∀ p ∈ rest.head?, n < p.length) :
    sentWhole (sdus.flatten.length + n) (sdus ++ rest) = sdus := by
  induction sdus with
  | nil =>
    cases rest with
    | nil => rfl
    | cons p rest =>
      have hless := h p rfl
      rw [List.nil_append, sentWhole, if_neg (by simpa using hless)]
  | cons p sdus ih =>
    rw [List.cons_append, sentWhole, List.flatten_cons, List.length_append, if_pos (by omega),
      show p.length + sdus.flatten.length + n - p.length = sdus.flatten.length + n by omega, ih]

/-- The receiver is in sync with the sender: it has delivered the accepted SDUs up to those that
are still to be sent, whole or in part. -/
structure Linked (config : RlcUmConfig) (l : Sending) : Prop where
  sound : TxSound l.entity
  sync : InSync (l.receiver config) l.entity.sequenceNumber.value
  sdusBuffer : (l.receiver config).reassembler.sdusBuffer = []
  expected : (l.receiver config).reassembler.expectedSeqNumber = l.entity.sequenceNumber.value
  waiting : ∃ pending, l.accepted = (l.receiver config).reassembler.delivered ++ pending ∧
    Waiting (l.receiver config).reassembler l.entity.txBuffer pending
  carried : l.pdus.flatMap carried ++ dataOf l.entity.txBuffer = l.accepted.flatten

theorem linked_initial (config config' : RlcUmConfig) :
    Linked config' (Sending.initial config) where
  sound := ⟨fun t ht => absurd ht List.not_mem_nil, rfl⟩
  sync := ⟨rfl, rfl, fun _ => rfl, rfl⟩
  sdusBuffer := rfl
  expected := rfl
  waiting := ⟨[], rfl, .full rfl []⟩
  carried := rfl

theorem Linked.idle (h : Linked config l) {e : Event} (haccepts : l.entity.accepts e = [])
    (hemits : l.entity.emits e = []) (hside : (l.entity.next e).txSide = l.entity.txSide) :
    Linked config (l.next e) := by
  have hsound := h.sound.of_txSide hside
  unfold Sending.next
  rw [haccepts, hemits, List.append_nil, List.append_nil]
  generalize l.entity.next e = s at hside hsound ⊢
  simp only [txSide, Prod.mk.injEq] at hside
  obtain ⟨hbuffer, -, hsn⟩ := hside
  refine ⟨hsound, ?_, h.sdusBuffer, ?_, ?_, ?_⟩
  · show InSync (l.receiver config) s.sequenceNumber.value
    rw [hsn]
    exact h.sync
  · show (l.receiver config).reassembler.expectedSeqNumber = s.sequenceNumber.value
    rw [hsn]
    exact h.expected
  · show ∃ pending, _ ∧ Waiting (l.receiver config).reassembler s.txBuffer pending
    rw [hbuffer]
    exact h.waiting
  · show l.pdus.flatMap LteRlcUm.carried ++ dataOf s.txBuffer = _
    rw [hbuffer]
    exact h.carried

theorem Linked.transmitPdcpPdu (h : Linked config l) {p : List ℕ} (hp : p ≠ []) :
    Linked config (l.next (.transmitPdcpPdu p)) := by
  have hsound := h.sound.doTransmitPdcpPdu hp
  obtain ⟨pending, haccepted, hwaiting⟩ := h.waiting
  by_cases hroom : l.entity.HasRoom p
  · have hnext : l.next (.transmitPdcpPdu p) =
        { l with
          entity := l.entity.doTransmitPdcpPdu p
          accepted := l.accepted ++ [p] } := by
      have haccepts : l.entity.accepts (.transmitPdcpPdu p) = [p] := if_pos hroom
      have hemits : l.entity.emits (.transmitPdcpPdu p) = [] := rfl
      unfold Sending.next
      rw [haccepts, hemits, List.append_nil]
      rfl
    have hbuffer : (l.entity.doTransmitPdcpPdu p).txBuffer =
        l.entity.txBuffer ++ [wholeSdu p] := by
      unfold LteRlcUm.doTransmitPdcpPdu
      rw [if_pos hroom]
      rfl
    have hsn : (l.entity.doTransmitPdcpPdu p).sequenceNumber = l.entity.sequenceNumber := by
      unfold LteRlcUm.doTransmitPdcpPdu
      rw [if_pos hroom]
    rw [hnext]
    generalize l.entity.doTransmitPdcpPdu p = s at hsound hbuffer hsn ⊢
    refine ⟨hsound, ?_, h.sdusBuffer, ?_, ⟨pending ++ [p], ?_, ?_⟩, ?_⟩
    · show InSync (l.receiver config) s.sequenceNumber.value
      rw [hsn]
      exact h.sync
    · show (l.receiver config).reassembler.expectedSeqNumber = s.sequenceNumber.value
      rw [hsn]
      exact h.expected
    · show l.accepted ++ [p] = (l.receiver config).reassembler.delivered ++ (pending ++ [p])
      rw [haccepted, List.append_assoc]
    · show Waiting (l.receiver config).reassembler s.txBuffer (pending ++ [p])
      rw [hbuffer]
      exact hwaiting.append p
    · show l.pdus.flatMap LteRlcUm.carried ++ dataOf s.txBuffer = (l.accepted ++ [p]).flatten
      rw [hbuffer, dataOf, List.flatMap_append, ← List.append_assoc, List.flatten_append,
        ← h.carried]
      simp [dataOf, wholeSdu]
  · apply h.idle (e := .transmitPdcpPdu p) (if_neg hroom) rfl
    show (l.entity.doTransmitPdcpPdu p).txSide = l.entity.txSide
    unfold LteRlcUm.doTransmitPdcpPdu
    rw [if_neg hroom]
    rfl

theorem Linked.notifyTxOpportunity (h : Linked config l) (bytes : ℕ) :
    Linked config (l.next (.notifyTxOpportunity bytes)) := by
  have hnext : l.next (.notifyTxOpportunity bytes) =
      { l with
        entity := (l.entity.doNotifyTxOpportunity bytes).1
        pdus := l.pdus ++ (l.entity.doNotifyTxOpportunity bytes).2.toList } := by
    have haccepts : l.entity.accepts (.notifyTxOpportunity bytes) = [] := rfl
    unfold Sending.next
    rw [haccepts, List.append_nil]
    rfl
  rw [hnext]
  cases hpdu : (l.entity.doNotifyTxOpportunity bytes).2 with
  | none =>
    rw [doNotifyTxOpportunity_none hpdu, Option.toList_none, List.append_nil]
    exact h
  | some pdu =>
    obtain ⟨pieces, hcut, hsound, hsn, hle, header, hread, hheads⟩ := h.sound.sends hpdu
    generalize (l.entity.doNotifyTxOpportunity bytes).1 = s at hcut hsound hsn ⊢
    obtain ⟨pending, haccepted, hwaiting⟩ := h.waiting
    obtain ⟨hsync, hreassembler⟩ := h.sync.receive hread hheads.sequenceNumber
    have hreceiver : ({ l with entity := s, pdus := l.pdus ++ [pdu] } : Sending).receiver config =
        (l.receiver config).doReceivePdu pdu := List.foldl_concat ..
    rw [hheads.framingInfo, hheads.extensionBits, hheads.lengthIndicators] at hreassembler
    obtain ⟨⟨done, rest, rfl, hdelivered, hw⟩, hempty, hexpected⟩ :=
      hwaiting.reassemble h.sdusBuffer h.expected hcut
    rw [← hreassembler] at hdelivered hw hempty hexpected
    have hsn' : s.sequenceNumber.value = (l.entity.sequenceNumber.value + 1) % 1024 := by
      rw [hsn]
      rfl
    refine ⟨hsound, ?_, ?_, ?_, ⟨rest, ?_, ?_⟩, ?_⟩
    · rw [Option.toList_some, hreceiver]
      exact hsn' ▸ hsync
    · rw [Option.toList_some, hreceiver]
      exact hempty
    · rw [Option.toList_some, hreceiver]
      exact hexpected.trans hsn'.symm
    · rw [Option.toList_some, hreceiver, hdelivered, List.append_assoc]
      exact haccepted
    · rw [Option.toList_some, hreceiver]
      exact hw
    · have hdata : LteRlcUm.carried pdu = dataOf pieces := by
        unfold LteRlcUm.carried
        rw [hread]
      have hcarried := h.carried
      rw [hcut.dataOf_eq] at hcarried
      show (l.pdus ++ [pdu]).flatMap LteRlcUm.carried ++ dataOf s.txBuffer = l.accepted.flatten
      rw [List.flatMap_append, List.flatMap_singleton, hdata, List.append_assoc, hcarried]

theorem Linked.next (h : Linked config l) {e : Event} (he : sending.enabled l e) :
    Linked config (l.next e) := by
  cases e with
  | transmitPdcpPdu p => exact h.transmitPdcpPdu he
  | notifyTxOpportunity bytes => exact h.notifyTxOpportunity bytes
  | receivePdu packet => exact h.idle rfl rfl (l.entity.doReceivePdu_txSide packet)
  | expireReorderingTimer => exact h.idle rfl rfl l.entity.expireReorderingTimer_txSide
  | expireRbsTimer => exact h.idle rfl rfl l.entity.expireRbsTimer_txSide

/-- The first SDU ends in the second PDU, which begins the second one. -/
def twoSdus : List Event :=
  [.transmitPdcpPdu [1, 2, 3, 4, 5], .transmitPdcpPdu [6, 7, 8], .notifyTxOpportunity 6,
    .notifyTxOpportunity 6]

example : ((sending.exec (.initial {}) twoSdus).receiver {}).reassembler.delivered =
    [[1, 2, 3, 4, 5]] := by decide +kernel

end Lossless
end LteRlcUm
end NetGymSim.Lte

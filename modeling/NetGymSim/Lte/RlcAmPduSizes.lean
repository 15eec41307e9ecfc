import NetGymSim.Lte.SduSegmentation
import NetGymSim.Lte.RlcAmHeaderCodec
import NetGymSim.Lte.RlcAmTxRuns
import NetGymSim.Lte.RlcAmStatusContent

/-!
# What the transmitting side stores

The transmission buffer holds SDUs and last segments of them, and a stored PDU is a header with
its data field. So a new PDU fills its opportunity as far as the segmentation loop does, and one
that is sent again has the size it had.
-/

namespace NetGymSim.Lte
open NetGymSim.Lib
namespace LteRlcAm
open LteRlcAmHeader

/-! ### The header of a new PDU -/

section Pushes
variable {h : LteRlcAmHeader} {k : ℕ}

theorem pushExtensionBit_eq (hext : h.extensionBits = List.replicate k eLiFieldsFollows)
    (hlen : h.headerLength = (4 + pairsLength (k - 1)) % 65536) (e : ℕ) :
    PduHeader.pushExtensionBit h e =
      { h with
        extensionBits := List.replicate k eLiFieldsFollows ++ [e]
        headerLength := (4 + pairsLength k) % 65536 } := by
  have hstep : pairsLength (k - 1) + pushExtensionLength (k + 1) = pairsLength k := by
    cases k with
    | zero => rfl
    | succ k => exact (pairsLength_succ k).symm
  show LteRlcAmHeader.pushExtensionBit h e = _
  unfold LteRlcAmHeader.pushExtensionBit lengthen
  dsimp only
  rw [hext, hlen, List.length_replicate, Nat.mod_add_mod, Nat.add_assoc, hstep]

theorem pushPieces_eq (hext : h.extensionBits = List.replicate k eLiFieldsFollows)
    (hlen : h.headerLength = (4 + pairsLength (k - 1)) % 65536) {lens : List ℕ} (hne : lens ≠ []) :
    pushPieces h lens =
      { h with
        extensionBits := extensions (k + lens.length)
        lengthIndicators := h.lengthIndicators ++ lens.dropLast
        headerLength := (4 + pairsLength (k + lens.length - 1)) % 65536 } := by
  induction lens generalizing h k with
  | nil => exact absurd rfl hne
  | cons len lens ih =>
    cases lens with
    | nil =>
      show PduHeader.pushExtensionBit h dataFieldFollows = _
      rw [pushExtensionBit_eq hext hlen, ← extensions_succ]
      simp
    | cons len' lens =>
      show pushPieces (PduHeader.pushLengthIndicator
        (PduHeader.pushExtensionBit h eLiFieldsFollows) len) (len' :: lens) = _
      rw [pushExtensionBit_eq hext hlen, ih (k := k + 1) (List.replicate_succ' ..).symm rfl
        (List.cons_ne_nil _ _)]
      have hli : (PduHeader.pushLengthIndicator { h with
          extensionBits := List.replicate k eLiFieldsFollows ++ [eLiFieldsFollows]
          headerLength := (4 + pairsLength k) % 65536 } len).lengthIndicators =
            h.lengthIndicators ++ [len] := rfl
      rw [hli, List.append_assoc, List.singleton_append, ← List.dropLast_cons_cons,
        List.length_cons, List.length_cons, List.length_cons,
        show k + 1 + (lens.length + 1) = k + (lens.length + 1 + 1) by omega]
      rfl

end Pushes

theorem newHeader_dataPdu {pieces : List TxPdu} {f : Filling LteRlcAmHeader}
    (hheader : f.header = pushPieces (({} : LteRlcAmHeader).setDataPdu) (lengths pieces))
    (hne : pieces ≠ []) (hshort : ∀ p ∈ pieces.dropLast, p.pdu.length ≤ 2047)
    (vtS : SequenceNumber10) (p : ℕ) :
    ((newHeader f vtS).setPollingBit p).DataPdu ∧
      ((newHeader f vtS).setPollingBit p).segmentOffset = 0 ∧
      ((newHeader f vtS).setPollingBit p).lengthIndicators.length = pieces.length - 1 := by
  have hlens : lengths pieces ≠ [] := fun h => hne (List.map_eq_nil_iff.mp h)
  have hpush := pushPieces_eq (h := ({} : LteRlcAmHeader).setDataPdu) (k := 0) rfl rfl hlens
  have hcount : (lengths pieces).length = pieces.length := List.length_map ..
  have hpos : 0 < pieces.length := List.length_pos_iff.mpr hne
  have hli : f.header.lengthIndicators = (lengths pieces).dropLast := by
    rw [hheader, hpush]
    exact List.nil_append _
  have hli' : f.header.lengthIndicators.length = pieces.length - 1 := by
    rw [hli, List.length_dropLast, hcount]
  refine ⟨?_, rfl, hli'⟩
  constructor
  case dataControlBit =>
    show f.header.dataControlBit = dataPdu
    rw [hheader, hpush]
    rfl
  case headerLength =>
    show f.header.headerLength = (4 + pairsLength f.header.lengthIndicators.length) % 65536
    rw [hli', hheader, hpush]
    dsimp only
    rw [hcount, Nat.zero_add]
  case resegmentationFlag_lt => exact (by decide : (0 : ℕ) < 2)
  case pollingBit_lt => exact Nat.lt_succ_of_le Nat.and_le_right
  case framingInfo_lt => exact Nat.lt_succ_of_le Nat.and_le_right
  case sequenceNumber_lt => exact vtS.value_lt
  case lastSegmentFlag_lt => exact (by decide : (1 : ℕ) < 2)
  case segmentOffset_lt => exact (by decide : (0 : ℕ) < 32768)
  case lengthIndicators_lt =>
    intro li hmem
    have hmem' : li ∈ f.header.lengthIndicators := hmem
    rw [hli, lengths, ← List.map_dropLast] at hmem'
    obtain ⟨piece, hpiece, rfl⟩ := List.mem_map.mp hmem'
    have hle := hshort piece hpiece
    omega
  case extensionBits =>
    show f.header.extensionBits = extensions (f.header.lengthIndicators.length + 1)
    rw [hli', hheader, hpush]
    dsimp only
    rw [hcount, Nat.zero_add, Nat.sub_add_cancel hpos]

/-! ### Stored PDUs -/

def Whole (pdu : List ℕ) : Prop :=
  ∃ h : LteRlcAmHeader, ∃ packet, h.DataPdu ∧ h.segmentOffset = 0 ∧ pdu = h.serialize ++ packet

theorem Whole.setPollingBit {pdu : List ℕ} (h : Whole pdu) :
    ∃ header packet, ({} : LteRlcAmHeader).deserialize pdu = some (header, packet) ∧
      ∀ p, ((header.setPollingBit p).serialize ++ packet).length = pdu.length := by
  obtain ⟨h, packet, hd, hoffset, rfl⟩ := h
  obtain ⟨r, hread, hsame, hlen, hr⟩ := deserialize_data hd packet
  refine ⟨r, packet, hread, fun p => ?_⟩
  have hrd : (r.setPollingBit p).DataPdu := by
    constructor
    case dataControlBit => exact hsame.dataControlBit.trans hd.dataControlBit
    case headerLength =>
      show r.headerLength = (4 + pairsLength r.lengthIndicators.length) % 65536
      rw [hlen, hsame.lengthIndicators]
      exact hd.headerLength
    case resegmentationFlag_lt => exact hsame.resegmentationFlag.symm ▸ hd.resegmentationFlag_lt
    case pollingBit_lt => exact Nat.lt_succ_of_le Nat.and_le_right
    case framingInfo_lt => exact hsame.framingInfo.symm ▸ hd.framingInfo_lt
    case sequenceNumber_lt => exact hsame.sequenceNumber.symm ▸ hd.sequenceNumber_lt
    case lastSegmentFlag_lt => exact hsame.lastSegmentFlag.symm ▸ hd.lastSegmentFlag_lt
    case segmentOffset_lt =>
      show r.segmentOffset < 32768
      rw [hr, hoffset]
      decide
    case lengthIndicators_lt => exact hsame.lengthIndicators.symm ▸ hd.lengthIndicators_lt
    case extensionBits =>
      show r.extensionBits = extensions (r.lengthIndicators.length + 1)
      rw [hsame.extensionBits, hsame.lengthIndicators]
      exact hd.extensionBits
  have hli : (r.setPollingBit p).lengthIndicators = h.lengthIndicators := hsame.lengthIndicators
  rw [List.length_append, List.length_append, length_serializeData hrd, length_serializeData hd,
    hli]

def Stores (s : LteRlcAm) (n : ℕ) (pdu : List ℕ) : Prop :=
  s.txedBuffer n = some pdu ∨ s.retxBuffer n = some pdu

/-- The transmitting side of an entity with the given attributes. -/
structure TxData (config : RlcAmConfig) (s : LteRlcAm) : Prop extends TxConsistent s where
  config : s.config = config
  queued : ∀ t ∈ s.txonBuffer, Queued t
  txonSize : s.txonBufferSize = (dataOf s.txonBuffer).length
  stored : ∀ n pdu, s.Stores n pdu → Whole pdu

structure StoresLess (s t : LteRlcAm) : Prop where
  config : t.config = s.config
  txonBuffer : t.txonBuffer = s.txonBuffer
  txonBufferSize : t.txonBufferSize = s.txonBufferSize
  stored : ∀ n pdu, t.Stores n pdu → s.Stores n pdu

namespace StoresLess
variable {s t u : LteRlcAm}

theorem of_txSide (h : t.txSide = s.txSide) : StoresLess s t := by
  simp only [txSide, TxSide.mk.injEq] at h
  obtain ⟨hconfig, htxon, hsize, hretx, -, htxed, -⟩ := h
  refine ⟨hconfig, htxon, hsize, ?_⟩
  intro n pdu hn
  unfold Stores at hn ⊢
  rwa [hretx, htxed] at hn

theorem trans (h : StoresLess s t) (h' : StoresLess t u) : StoresLess s u :=
  ⟨h'.config.trans h.config, h'.txonBuffer.trans h.txonBuffer,
    h'.txonBufferSize.trans h.txonBufferSize, fun n pdu hn => h.stored n pdu (h'.stored n pdu hn)⟩

theorem of_update {f : ℕ → Option (List ℕ)} {n m : ℕ} {pdu : List ℕ}
    (h : Function.update f n none m = some pdu) : f m = some pdu := by
  by_cases hm : m = n
  · rw [hm, Function.update_self] at h
    cases h
  · rwa [Function.update_of_ne hm] at h

theorem nack (s : LteRlcAm) (n : ℕ) : StoresLess s (s.nack n) := by
  unfold LteRlcAm.nack
  cases hn : s.txedBuffer n with
  | none => exact of_txSide rfl
  | some pdu =>
    refine ⟨rfl, rfl, rfl, ?_⟩
    intro m q hm
    rcases hm with hm | hm
    · exact Or.inl (of_update hm)
    · change Function.update s.retxBuffer n (some pdu) m = some q at hm
      by_cases hmn : m = n
      · rw [hmn, Function.update_self] at hm
        exact Or.inl (hmn ▸ hn.trans hm)
      · rw [Function.update_of_ne hmn] at hm
        exact Or.inr hm

theorem ack (s : LteRlcAm) (n : ℕ) : StoresLess s (s.ack n) := by
  unfold LteRlcAm.ack
  cases s.txedBuffer n with
  | none =>
    dsimp only
    cases s.retxBuffer n with
    | none => exact of_txSide rfl
    | some pdu => exact ⟨rfl, rfl, rfl, fun m q hm => hm.imp_right of_update⟩
  | some pdu =>
    dsimp only
    cases s.retxBuffer n with
    | none => exact ⟨rfl, rfl, rfl, fun m q hm => hm.imp_left of_update⟩
    | some pdu' => exact ⟨rfl, rfl, rfl, fun m q hm => hm.imp of_update of_update⟩

theorem report (s : LteRlcAm) (header : LteRlcAmHeader) (n : ℕ) :
    StoresLess s (s.report header n) := by
  have hstop : StoresLess s (s.stopPoll n) := of_txSide (s.stopPoll_sides n).1
  unfold LteRlcAm.report
  split_ifs with hnack
  · exact hstop.trans (nack _ n)
  · exact hstop.trans (ack _ n)

theorem handleStatus (header : LteRlcAmHeader) (fuel : ℕ) (s : LteRlcAm)
    (sn ackSn : SequenceNumber10) (incrementVtA : Bool) :
    StoresLess s (handleStatus header fuel s sn ackSn incrementVtA) := by
  induction fuel generalizing s sn ackSn incrementVtA with
  | zero => exact of_txSide rfl
  | succ fuel ih =>
    have hreport := report s header sn.value
    rw [handleStatus_succ]
    split_ifs with hgo hinc
    · have hadvance : StoresLess s (s.report header sn.value).advanceVtA :=
        ⟨hreport.config, hreport.txonBuffer, hreport.txonBufferSize, hreport.stored⟩
      exact hadvance.trans (ih _ _ _ _)
    · exact hreport.trans (ih _ _ _ _)
    · exact of_txSide rfl

theorem moveAllToRetx (fuel : ℕ) (s : LteRlcAm) (sn : SequenceNumber10) :
    StoresLess s (moveAllToRetx fuel s sn) := by
  induction fuel generalizing s sn with
  | zero => exact of_txSide rfl
  | succ fuel ih =>
    unfold LteRlcAm.moveAllToRetx
    split_ifs with hgo
    · exact (nack s sn.value).trans (ih _ _)
    · exact of_txSide rfl

theorem retransmit {s : LteRlcAm} {n : ℕ} {pdu : List ℕ} (hn : s.retxBuffer n = some pdu) :
    StoresLess s (s.retransmit n pdu).1 := by
  have hmove : ∀ t : LteRlcAm, StoresLess s t → StoresLess s (t.moveToTxed n pdu) := by
    intro t ht
    refine ⟨ht.config, ht.txonBuffer, ht.txonBufferSize, ?_⟩
    intro m q hm
    rcases hm with hm | hm
    · change Function.update t.txedBuffer n (some pdu) m = some q at hm
      by_cases hmn : m = n
      · rw [hmn, Function.update_self] at hm
        exact Or.inr (hmn ▸ hn.trans hm)
      · rw [Function.update_of_ne hmn] at hm
        exact ht.stored m q (Or.inl hm)
    · exact ht.stored m q (Or.inr (of_update hm))
  unfold LteRlcAm.retransmit
  cases ({} : LteRlcAmHeader).deserialize pdu with
  | none => exact of_txSide rfl
  | some read =>
    dsimp only
    split_ifs with hpoll
    · exact hmove _ (of_txSide s.poll_sides.1)
    · exact hmove s (of_txSide rfl)

end StoresLess

/-! ### A new PDU -/

section Build
variable {config : RlcAmConfig} {s t : LteRlcAm} {first : TxPdu} {behind : List TxPdu} {bytes : ℕ}

theorem TxData.takeDataField (h : TxData config s) (htxon : s.txonBuffer = first :: behind)
    (hbytes : 4 < bytes) :
    ∃ pieces, Filled (({} : LteRlcAmHeader).setDataPdu) [] (bytes - 4) 1 (first :: behind) pieces
      (s.takeDataField bytes first behind) := by
  have hqueued := h.queued
  have hsize := h.txonSize
  rw [htxon] at hqueued hsize
  rw [dataOf_cons, List.length_append] at hsize
  exact fillDataField_filled hqueued (by omega) (by omega)

theorem buildPdu_pdu (s : LteRlcAm) (bytes : ℕ) (first : TxPdu) (behind : List TxPdu) :
    ∃ p, (s.buildPdu bytes first behind).2 =
      ((newHeader (s.takeDataField bytes first behind) s.vtS).setPollingBit p).serialize ++
        dataOf (s.takeDataField bytes first behind).dataField := by
  unfold LteRlcAm.buildPdu
  dsimp only
  split_ifs with hpoll
  · exact ⟨1, rfl⟩
  · exact ⟨0, rfl⟩

theorem TxData.buildPdu_whole (h : TxData config s) (htxon : s.txonBuffer = first :: behind)
    (hbytes : 4 < bytes) :
    Whole (s.buildPdu bytes first behind).2 ∧ (s.buildPdu bytes first behind).2.length ≤ bytes := by
  obtain ⟨pieces, hf⟩ := h.takeDataField htxon hbytes
  obtain ⟨p, hp⟩ := s.buildPdu_pdu bytes first behind
  have hfits := hf.fits
  rw [overhead_one] at hfits
  obtain ⟨hd, hoffset, hli⟩ := newHeader_dataPdu hf.header hf.cut.pieces_ne_nil hf.short s.vtS p
  refine ⟨⟨_, _, hd, hoffset, hp⟩, ?_⟩
  rw [hp, hf.dataField, List.nil_append, List.length_append, length_serializeData hd, hli]
  omega

theorem TxData.buildPdu (h : TxData config s) (htxon : s.txonBuffer = first :: behind)
    (hroom : s.vtS.value ≠ s.vtMs.value) (hbytes : 4 < bytes) :
    TxData config (s.buildPdu bytes first behind).1 := by
  obtain ⟨pieces, hf⟩ := h.takeDataField htxon hbytes
  have hwhole := (h.buildPdu_whole htxon hbytes).1
  have hconsistent := h.toTxConsistent.buildPdu hroom bytes first behind
  have hqueued := h.queued
  rw [htxon] at hqueued
  have hside := s.buildPdu_txSide bytes first behind
  generalize (s.buildPdu bytes first behind).2 = pdu at hside hwhole
  generalize (s.buildPdu bytes first behind).1 = t at hside hconsistent ⊢
  simp only [txSide, TxSide.mk.injEq] at hside
  obtain ⟨hconfig, htxonT, hsizeT, hretx, -, htxed, -⟩ := hside
  refine ⟨hconsistent, hconfig.trans h.config, ?_, ?_, ?_⟩
  · rw [htxonT]
    exact hf.cut.queued hqueued
  · rw [htxonT, hsizeT]
    exact hf.size
  · intro n q hn
    unfold Stores at hn
    rw [htxed, hretx] at hn
    by_cases hv : n = s.vtS.value
    · rw [hv, Function.update_self] at hn
      rcases hn with hn | hn
      · cases hn
        exact hwhole
      · exact h.stored _ q (Or.inr hn)
    · rw [Function.update_of_ne hv] at hn
      exact h.stored n q hn

end Build

/-! ### The events -/

namespace TxData
variable {config : RlcAmConfig} {s t : LteRlcAm} {bytes : ℕ}

theorem of_less (h : TxData config s) (hless : StoresLess s t) (ht : TxConsistent t) :
    TxData config t := by
  refine ⟨ht, hless.config.trans h.config, ?_, ?_,
    fun n pdu hn => h.stored n pdu (hless.stored n pdu hn)⟩
  · rw [hless.txonBuffer]
    exact h.queued
  · rw [hless.txonBuffer, hless.txonBufferSize]
    exact h.txonSize

theorem congr (h : TxData config s) (heq : t.txSide = s.txSide) : TxData config t :=
  h.of_less (.of_txSide heq) (h.toTxConsistent.congr heq)

theorem sends (h : TxData config s) {r : LteRlcAm × Option (List ℕ)} (hr : s.Sends bytes r) :
    TxData config r.1 := by
  have hconsistent := h.toTxConsistent.sends hr
  cases hr with
  | nothing => exact h
  | again sn pdu hretx hfind hfits =>
    exact h.of_less (.retransmit (findRetx_mem hfind)) hconsistent
  | lost hretx hfind =>
    obtain ⟨sn, pdu, hsome⟩ := h.findRetx_isSome hretx
    rw [hfind] at hsome
    cases hsome
  | fresh hbytes hretx htxon hroom =>
    unfold sendNew
    cases hbuffer : s.txonBuffer with
    | nil => exact h
    | cons first behind => exact h.buildPdu hbuffer hroom (by omega)

theorem doTransmitPdcpPdu (h : TxData config s) {p : List ℕ} (hp : p ≠ []) :
    TxData config (s.doTransmitPdcpPdu p) := by
  have hconsistent := h.toTxConsistent.doTransmitPdcpPdu p
  unfold LteRlcAm.doTransmitPdcpPdu at hconsistent ⊢
  split_ifs at hconsistent ⊢ with hroom
  · refine ⟨hconsistent, h.config, ?_, ?_, h.stored⟩
    · intro t ht
      rcases List.mem_append.mp ht with ht | ht
      · exact h.queued t ht
      · rw [List.mem_singleton.mp ht]
        exact ⟨hp, Or.inl rfl⟩
    · show s.txonBufferSize + p.length = (dataOf (s.txonBuffer ++ [⟨p, .fullSdu⟩])).length
      rw [h.txonSize]
      simp [dataOf]
  · exact ⟨hconsistent, h.config, h.queued, h.txonSize, h.stored⟩

theorem doReceivePdu (h : TxData config s) (packet : List ℕ) :
    TxData config (s.doReceivePdu packet) := by
  have hconsistent := h.toTxConsistent.doReceivePdu packet
  apply h.of_less _ hconsistent
  unfold LteRlcAm.doReceivePdu
  cases ({} : LteRlcAmHeader).deserialize packet with
  | none => exact .of_txSide rfl
  | some read =>
    dsimp only
    split_ifs with hdata
    · exact .of_txSide (s.receiveData_sides packet read.1).1
    · rw [receiveStatus_eq, h.rebased]
      exact .handleStatus read.1 1024 s _ _ _

theorem expirePollRetransmitTimer (h : TxData config s) :
    TxData config s.expirePollRetransmitTimer := by
  apply h.of_less _ h.toTxConsistent.expirePollRetransmitTimer
  have hstart : StoresLess s { s with
      pollRetransmitTimer := false, pollRetransmitTimerJustExpired := true } := .of_txSide rfl
  unfold LteRlcAm.expirePollRetransmitTimer
  dsimp only
  split_ifs with hmove
  · exact hstart.trans (.moveAllToRetx 1024 _ s.vtA)
  · exact hstart

theorem next (h : TxData config s) (e : Event) (he : machine.enabled s e) :
    TxData config (s.next e) := by
  cases e with
  | transmitPdcpPdu p => exact h.doTransmitPdcpPdu he
  | notifyTxOpportunity bytes =>
    show TxData config (s.doNotifyTxOpportunity bytes).1
    by_cases hdue : s.statusDue bytes
    · rw [s.doNotifyTxOpportunity_of_due bytes hdue]
      exact h.congr (s.sendStatus_sides bytes).1
    · exact h.sends (s.doNotifyTxOpportunity_sends bytes hdue)
  | receivePdu packet => exact h.doReceivePdu packet
  | expireReorderingTimer => exact h.congr s.expireReorderingTimer_txSide
  | expirePollRetransmitTimer => exact h.expirePollRetransmitTimer
  | expireStatusProhibitTimer => exact h.congr rfl
  | expireRbsTimer =>
    apply h.congr
    show s.expireRbsTimer.txSide = s.txSide
    unfold expireRbsTimer
    split_ifs <;> rfl

theorem of_reaches {es : List Event}
    (h : machine.Reaches (initial config) es s) : TxData config s := by
  have hstart : TxData config (initial config) := by
    refine ⟨TxConsistent.initial config, rfl, ?_, rfl, ?_⟩
    · intro t ht
      cases ht
    · intro n pdu hn
      rcases hn with hn | hn <;> cases hn
  apply Machine.Reaches.invariant (P := TxData config) hstart _ h
  intro s e hs he
  exact hs.next e he

theorem sends_fits (h : TxData config s) (hbig : config.txOpportunityForRetxAlwaysBigEnough = false)
    {r : LteRlcAm × Option (List ℕ)} (hr : s.Sends bytes r) {pdu : List ℕ} (hpdu : r.2 = some pdu) :
    pdu.length ≤ bytes := by
  cases hr with
  | nothing => cases hpdu
  | again sn stored hretx hfind hfits =>
    have hfits' : stored.length ≤ bytes := by
      rw [h.config, hbig] at hfits
      exact hfits.resolve_right Bool.false_ne_true
    obtain ⟨header, packet, hread, hlen⟩ :=
      (h.stored sn stored (Or.inr (findRetx_mem hfind))).setPollingBit
    unfold retransmit at hpdu
    rw [hread] at hpdu
    dsimp only at hpdu
    split_ifs at hpdu with hpoll
    · cases hpdu
      rw [hlen]
      exact hfits'
    · cases hpdu
      rw [hlen]
      exact hfits'
  | lost hretx hfind =>
    obtain ⟨sn, stored, hsome⟩ := h.findRetx_isSome hretx
    rw [hfind] at hsome
    cases hsome
  | fresh hbytes hretx htxon hroom =>
    unfold sendNew at hpdu
    cases hbuffer : s.txonBuffer with
    | nil =>
      rw [hbuffer] at hpdu
      cases hpdu
    | cons first behind =>
      rw [hbuffer] at hpdu
      cases hpdu
      exact (h.buildPdu_whole hbuffer (by omega)).2

end TxData
end LteRlcAm
end NetGymSim.Lte

/-!
## The sizes of PDUs

`OneMoreNackWouldFitIn` asks for one byte more where the next NACK takes two, and for two where
it takes one. When the header lacks one byte to the opportunity and the next NACK takes two, the
STATUS PDU is a byte too long; this is so for the opportunities that three divides when enough
PDUs are missing. Data PDUs always fit.
-/

namespace NetGymSim.Lte
open NetGymSim.Lib
namespace LteRlcAm
open LteRlcAmHeader

def FitsMore (bytes n : ℕ) : Prop :=
  if n % 2 = 0 then statusLength n < bytes % 65536 else statusLength n + 1 < bytes % 65536

theorem oneMoreNackWouldFitIn_iff {nacks : List ℕ} (h : nacks.length ≤ 1024) (bytes : ℕ) :
    (listing nacks).oneMoreNackWouldFitIn bytes ↔ FitsMore bytes nacks.length := by
  have hlen : (listing nacks).headerLength = statusLength nacks.length := by
    show statusLength nacks.length % 65536 = _
    unfold statusLength
    omega
  have hlist : (listing nacks).nackSnList = nacks := rfl
  unfold oneMoreNackWouldFitIn FitsMore
  rw [hlen, hlist]
  split_ifs with heven
  · rw [decide_eq_true_iff]
  · rw [decide_eq_true_iff]
    omega

theorem statusLength_gt_iff {bytes collected total : ℕ} (hbytes : 4 ≤ bytes)
    (hle : collected ≤ total) (hfitted : ∀ n, n < collected → FitsMore bytes n)
    (hstopped : collected = total ∨ ¬ FitsMore bytes collected) :
    bytes < statusLength collected ↔
      bytes < 65536 ∧ bytes % 3 = 0 ∧ 2 * bytes / 3 ≤ total + 1 := by
  constructor
  · intro hlong
    obtain ⟨n, rfl⟩ : ∃ n, collected = n + 1 := by
      cases collected with
      | zero =>
        unfold statusLength at hlong
        omega
      | succ n => exact ⟨n, rfl⟩
    have hfit := hfitted n (Nat.lt_succ_self n)
    unfold FitsMore statusLength at hfit
    unfold statusLength at hlong
    split_ifs at hfit with heven <;> omega
  · intro h
    obtain ⟨hsmall, hthree, htotal⟩ := h
    by_contra hshort
    have hfit : FitsMore bytes collected := by
      unfold FitsMore
      unfold statusLength at hshort ⊢
      split_ifs with heven <;> omega
    have hend := hstopped.resolve_right (not_not.mpr hfit)
    unfold statusLength at hshort
    omega

/-! ### Counting the missing numbers -/

section Count
variable {s : LteRlcAm}

theorem missing_mono {j k : ℕ} (h : j ≤ k) : (s.missing j).length ≤ (s.missing k).length := by
  induction k, h using Nat.le_induction with
  | base => exact le_refl _
  | succ k _ ih =>
    rw [missing_succ, List.length_append]
    omega

theorem length_missing_le (s : LteRlcAm) (k : ℕ) : (s.missing k).length ≤ k := by
  unfold missing
  apply le_trans (List.length_filter_le ..)
  rw [List.length_map, List.length_range]

theorem exists_missing_length {k n : ℕ} (h : n < (s.missing k).length) :
    ∃ j, j < k ∧ (s.missing j).length = n := by
  induction k with
  | zero => exact absurd h (Nat.not_lt_zero n)
  | succ k ih =>
    by_cases hlt : n < (s.missing k).length
    · obtain ⟨j, hj, hlen⟩ := ih hlt
      exact ⟨j, Nat.lt_succ_of_lt hj, hlen⟩
    · rw [missing_succ, List.length_append] at h
      refine ⟨k, Nat.lt_succ_self k, ?_⟩
      split_ifs at h with hc
      · rw [List.length_nil] at h
        omega
      · rw [List.length_singleton] at h
        omega

end Count

/-! ### Every PDU -/

/-- A STATUS PDU is due, its size is below 2^16 and a multiple of three, and the number of missing
PDUs in [VR(R), VR(MS)) is two thirds of it, less one, at least. -/
def OverlongStatus (s : LteRlcAm) (bytes : ℕ) : Prop :=
  s.statusDue bytes ∧ bytes < 65536 ∧ bytes % 3 = 0 ∧
    2 * bytes / 3 ≤ (s.missing s.vrMs.dist).length + 1

theorem RxConsistent.length_status {s : LteRlcAm} (h : RxConsistent s) {bytes : ℕ}
    (hbytes : 4 ≤ bytes) :
    bytes < (s.statusHeader bytes).serialize.length ↔
      bytes < 65536 ∧ bytes % 3 = 0 ∧ 2 * bytes / 3 ≤ (s.missing s.vrMs.dist).length + 1 := by
  have hstatus := (h.statusHeader bytes).1
  obtain ⟨-, -, hmax, hheader, hfitted, hstopped⟩ := h.collected bytes
  have hlist : (s.statusHeader bytes).nackSnList =
      s.missing (s.collectNacks bytes 1024 s.vrR (listing [])).1.dist := by
    rw [statusHeader_eq, hheader]
    rfl
  rw [length_serializeControl hstatus, hlist]
  generalize (s.collectNacks bytes 1024 s.vrR (listing [])).1.dist = stop at hmax hfitted hstopped ⊢
  have hH := h.vrH_le
  have hMs := h.vrMs_le
  have hshort : ∀ k, k ≤ stop → (s.missing k).length ≤ 1024 := by
    intro k hk
    have hlen := s.length_missing_le k
    unfold amWindowSize at hH
    omega
  apply statusLength_gt_iff hbytes (missing_mono hmax)
  · intro n hn
    obtain ⟨k, hk, rfl⟩ := exists_missing_length hn
    exact (oneMoreNackWouldFitIn_iff (hshort k (by omega)) bytes).mp (hfitted k (Nat.zero_le k) hk)
  · rcases hstopped with hend | hfull
    · exact Or.inl (by rw [hend])
    · exact Or.inr fun hfit =>
        hfull ((oneMoreNackWouldFitIn_iff (hshort stop (le_refl _)) bytes).mpr hfit)

/-- Every PDU that an opportunity takes fits in it, unless it is an overlong STATUS PDU. -/
theorem pdu_fits_iff {config : RlcAmConfig}
    (hbig : config.txOpportunityForRetxAlwaysBigEnough = false)
    {es : List Event} {s : LteRlcAm} (h : machine.Reaches (initial config) es s) (bytes : ℕ) :
    (∀ pdu, (s.doNotifyTxOpportunity bytes).2 = some pdu → pdu.length ≤ bytes) ↔
      ¬ s.OverlongStatus bytes := by
  by_cases hdue : s.statusDue bytes
  · have hlen := (RxConsistent.of_reaches h).length_status hdue.2.1
    rw [s.doNotifyTxOpportunity_of_due bytes hdue]
    unfold OverlongStatus
    rw [and_iff_right hdue, ← hlen, Nat.not_lt]
    constructor
    · intro hfits
      exact hfits _ rfl
    · intro hfits pdu hpdu
      cases hpdu
      exact hfits
  · refine iff_of_true ?_ fun hlong => hdue hlong.1
    intro pdu hpdu
    exact (TxData.of_reaches h).sends_fits hbig (s.doNotifyTxOpportunity_sends bytes hdue) hpdu

/-- Number 3 is received with a poll while 0, 1 and 2 are missing, and the reordering timer
expires. -/
def threeMissing : List Event :=
  [.receivePdu [0xa0, 0x03, 0x80, 0x00, 0x2a], .expireReorderingTimer]

theorem threeMissing_fits_iff :
    (∀ pdu, ((machine.exec (initial {}) threeMissing).doNotifyTxOpportunity 7).2 = some pdu →
      pdu.length ≤ 7) ↔ ¬ (machine.exec (initial {}) threeMissing).OverlongStatus 7 := by
  have hrun : machine.Permits (initial {}) threeMissing := by decide +kernel
  exact pdu_fits_iff rfl hrun.reaches 7

/-- The three missing numbers take seven bytes where six are granted. -/
theorem three_missing_overlong :
    machine.Permits (initial {}) threeMissing ∧
      ∃ pdu, ((machine.exec (initial {}) threeMissing).doNotifyTxOpportunity 6).2 = some pdu ∧
        pdu.length = 7 := by
  refine ⟨by decide +kernel, ?_⟩
  have hsent : (((machine.exec (initial {}) threeMissing).doNotifyTxOpportunity 6).2.map
      List.length) = some 7 := by decide +kernel
  exact Option.map_eq_some_iff.mp hsent

end LteRlcAm
end NetGymSim.Lte

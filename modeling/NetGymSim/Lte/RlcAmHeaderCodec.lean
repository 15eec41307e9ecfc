import NetGymSim.Lte.RlcAmHeader

/-!
# What `LteRlcAmHeader` reads back

Both lists come back with everything else but the segment offset of a data PDU: the reader
joins its two bytes without shifting the first. The length is counted in 16 bits by the
setters and by the reader alike.
-/

namespace NetGymSim.Lte
open NetGymSim.Lib
namespace LteRlcAmHeader

/-! ### Data PDUs -/

structure DataPdu (h : LteRlcAmHeader) : Prop where
  dataControlBit : h.dataControlBit = dataPdu
  headerLength : h.headerLength = (4 + pairsLength h.lengthIndicators.length) % 65536
  resegmentationFlag_lt : h.resegmentationFlag < 2
  pollingBit_lt : h.pollingBit < 2
  framingInfo_lt : h.framingInfo < 4
  sequenceNumber_lt : h.sequenceNumber < 1024
  lastSegmentFlag_lt : h.lastSegmentFlag < 2
  segmentOffset_lt : h.segmentOffset < 32768
  lengthIndicators_lt : ∀ li ∈ h.lengthIndicators, li < 2048
  extensionBits : h.extensionBits = extensions (h.lengthIndicators.length + 1)

def dataByte (rf p fi e sn : ℕ) : ℕ := 128 + 64 * rf + 32 * p + 8 * fi + 4 * e + sn / 256

theorem dataByte_eq {rf p fi e sn : ℕ} (hrf : rf < 2) (hp : p < 2) (hfi : fi < 4) (he : e < 2)
    (hsn : sn < 1024) :
    ((((((dataPdu <<< 7) &&& 0x80) ||| ((rf <<< 6) &&& 0x40)) ||| ((p <<< 5) &&& 0x20)) |||
      ((fi <<< 3) &&& 0x18)) ||| ((e <<< 2) &&& 0x04)) ||| ((sn >>> 8) &&& 0x0003) =
        dataByte rf p fi e sn := by
  have h1 : (dataPdu <<< 7) &&& 0x80 = 128 := rfl
  have h2 : (rf <<< 6) &&& 0x40 = 64 * rf := shiftLeft_and_of_lt (w := 1) (k := 6) rfl hrf
  have h3 : (p <<< 5) &&& 0x20 = 32 * p := shiftLeft_and_of_lt (w := 1) (k := 5) rfl hp
  have h4 : (fi <<< 3) &&& 0x18 = 8 * fi := shiftLeft_and_of_lt (w := 2) (k := 3) rfl hfi
  have h5 : (e <<< 2) &&& 0x04 = 4 * e := shiftLeft_and_of_lt (w := 1) (k := 2) rfl he
  have h6 : (sn >>> 8) &&& 0x0003 = sn / 256 := by
    rw [shiftRight_and (m := 0x03) (w := 2) rfl]
    omega
  rw [h1, h2, h3, h4, h5, h6, or_eq_add (a := 128) (k := 7) (by omega) (by omega),
    or_eq_add (a := 128 + 64 * rf) (k := 6) (by omega) (by omega),
    or_eq_add (a := 128 + 64 * rf + 32 * p) (k := 5) (by omega) (by omega),
    or_eq_add (a := 128 + 64 * rf + 32 * p + 8 * fi) (k := 3) (by omega) (by omega),
    or_eq_add (a := 128 + 64 * rf + 32 * p + 8 * fi + 4 * e) (k := 2) (by omega) (by omega)]
  rfl

theorem dataByte_fields {rf p fi e sn : ℕ} (hrf : rf < 2) (hp : p < 2) (hfi : fi < 4) (he : e < 2)
    (hsn : sn < 1024) :
    let byte1 := dataByte rf p fi e sn
    (byte1 &&& 0x80) >>> 7 = 1 ∧ (byte1 &&& 0x40) >>> 6 = rf ∧ (byte1 &&& 0x20) >>> 5 = p ∧
      (byte1 &&& 0x18) >>> 3 = fi ∧ (byte1 &&& 0x04) >>> 2 = e ∧
        (((byte1 &&& 0x03) <<< 8) ||| (sn % 256)) % 1024 = sn := by
  dsimp only
  rw [and_shiftRight (m := 0x80) (w := 1) rfl, and_shiftRight (m := 0x40) (w := 1) rfl,
    and_shiftRight (m := 0x20) (w := 1) rfl, and_shiftRight (m := 0x18) (w := 2) rfl,
    and_shiftRight (m := 0x04) (w := 1) rfl, and_mask (m := 0x03) (w := 2) rfl, Nat.shiftLeft_eq,
    or_eq_add (k := 8) (by omega) (by omega)]
  unfold dataByte
  omega

theorem serializeData_eq {h : LteRlcAmHeader} (hd : h.DataPdu) :
    h.serialize =
      dataByte h.resegmentationFlag h.pollingBit h.framingInfo
          (if h.lengthIndicators.length = 0 then 0 else 1) h.sequenceNumber ::
        h.sequenceNumber % 256 :: (128 * h.lastSegmentFlag + h.segmentOffset / 256) ::
        h.segmentOffset % 256 ::
          writePairs (extensions h.lengthIndicators.length) h.lengthIndicators := by
  have hlsf : (h.lastSegmentFlag <<< 7) &&& 0x80 = 128 * h.lastSegmentFlag :=
    shiftLeft_and_of_lt (w := 1) (k := 7) rfl hd.lastSegmentFlag_lt
  have hso : (h.segmentOffset >>> 8) &&& 0x007f = h.segmentOffset / 256 := by
    have := hd.segmentOffset_lt
    rw [shiftRight_and (m := 0x7f) (w := 7) rfl]
    omega
  have hsn : h.sequenceNumber &&& 0x00ff = h.sequenceNumber % 256 := and_mask (w := 8) rfl _
  have hlow : h.segmentOffset &&& 0x00ff = h.segmentOffset % 256 := and_mask (w := 8) rfl _
  unfold serialize serializeData
  rw [if_pos hd.dataControlBit, hd.extensionBits, headD_extensions, tail_extensions,
    dataByte_eq hd.resegmentationFlag_lt hd.pollingBit_lt hd.framingInfo_lt
      (by split_ifs <;> omega) hd.sequenceNumber_lt, hsn, hlsf, hso, hlow,
    or_eq_add (k := 7) (by omega) (by have := hd.segmentOffset_lt; omega)]
  rfl

theorem length_serializeData {h : LteRlcAmHeader} (hd : h.DataPdu) :
    h.serialize.length = 4 + pairsLength h.lengthIndicators.length := by
  rw [serializeData_eq hd]
  simp only [List.length_cons, length_writePairs]
  omega

structure SameData (h r : LteRlcAmHeader) : Prop where
  dataControlBit : r.dataControlBit = h.dataControlBit
  resegmentationFlag : r.resegmentationFlag = h.resegmentationFlag
  pollingBit : r.pollingBit = h.pollingBit
  framingInfo : r.framingInfo = h.framingInfo
  sequenceNumber : r.sequenceNumber = h.sequenceNumber
  extensionBits : r.extensionBits = h.extensionBits
  lengthIndicators : r.lengthIndicators = h.lengthIndicators
  lastSegmentFlag : r.lastSegmentFlag = h.lastSegmentFlag

theorem deserialize_data {h : LteRlcAmHeader} (hd : h.DataPdu) (rest : List ℕ) :
    ∃ r : LteRlcAmHeader, ({} : LteRlcAmHeader).deserialize (h.serialize ++ rest) =
      some (r, rest) ∧ h.SameData r ∧ r.headerLength = h.headerLength ∧
        r.segmentOffset = (h.segmentOffset / 256) ||| (h.segmentOffset % 256) := by
  obtain ⟨f1, f2, f3, f4, f5, f6⟩ := dataByte_fields hd.resegmentationFlag_lt hd.pollingBit_lt
    hd.framingInfo_lt (e := if h.lengthIndicators.length = 0 then 0 else 1)
    (by split_ifs <;> omega) hd.sequenceNumber_lt
  have hlsf : ((128 * h.lastSegmentFlag + h.segmentOffset / 256) &&& 0x80) >>> 7 =
      h.lastSegmentFlag := by
    have h1 := hd.lastSegmentFlag_lt
    have h2 := hd.segmentOffset_lt
    rw [and_shiftRight (m := 0x80) (w := 1) rfl]
    omega
  have hso : (128 * h.lastSegmentFlag + h.segmentOffset / 256) &&& 0x7f =
      h.segmentOffset / 256 := by
    have h2 := hd.segmentOffset_lt
    rw [and_mask (m := 0x7f) (w := 7) rfl]
    omega
  have hbit : h.dataControlBit = 1 := hd.dataControlBit
  rw [serializeData_eq hd]
  simp only [List.cons_append, deserialize, f1, dataPdu, ↓reduceIte, deserializeData, f5]
  by_cases hn : h.lengthIndicators.length = 0
  · have hnil : h.lengthIndicators = [] := List.length_eq_zero_iff.mp hn
    have hext : h.extensionBits = [0] := by rw [hd.extensionBits, hn]; rfl
    have hlen : h.headerLength = 4 := by rw [hd.headerLength, hn]; rfl
    simp only [readFixed, f2, f3, f4, f5, f6, hlsf, hso]
    simp only [hnil, dataFieldFollows]
    exact ⟨_, rfl, ⟨hbit.symm, rfl, rfl, rfl, rfl, hext.symm, hnil.symm, rfl⟩, hlen.symm, rfl⟩
  · have hne : h.lengthIndicators ≠ [] := fun he => hn (by rw [he]; rfl)
    have hext : h.extensionBits = 1 :: extensions h.lengthIndicators.length := by
      obtain ⟨n, hn'⟩ := Nat.exists_eq_succ_of_ne_zero hn
      rw [hd.extensionBits, hn']
      rfl
    have hpairs := readPairs_writePairs hne hd.lengthIndicators_lt rest
    simp only [readFixed, f2, f3, f4, f5, f6, hlsf, hso]
    simp only [hn, ↓reduceIte, dataFieldFollows, one_ne_zero, hpairs, Option.map_some]
    exact ⟨_, rfl, ⟨hbit.symm, rfl, rfl, rfl, rfl, hext.symm, rfl, rfl⟩, hd.headerLength.symm, rfl⟩

/-! ### STATUS PDUs -/

structure StatusPdu (h : LteRlcAmHeader) : Prop where
  dataControlBit : h.dataControlBit = controlPdu
  headerLength : h.headerLength = statusLength h.nackSnList.length % 65536
  controlPduType : h.controlPduType = statusPdu
  ackSn_lt : h.ackSn < 1024
  nackSnList_lt : ∀ nack ∈ h.nackSnList, nack < 1024

theorem writeOdd_eq (odd : ℕ) : (odd >>> 1) &&& 0xff = odd / 2 % 256 :=
  shiftRight_and (w := 8) rfl odd 1

theorem writeLow_eq (odd : ℕ) : (odd <<< 7) &&& 0x80 = 128 * (odd % 2) :=
  shiftLeft_and (w := 1) (k := 7) rfl odd

theorem writeHigh_eq (odd even : ℕ) :
    (((odd <<< 7) &&& 0x80) ||| 0x40) ||| ((even >>> 5) &&& 0x1f) =
      128 * (odd % 2) + 64 + even / 32 % 32 := by
  rw [writeLow_eq, shiftRight_and (m := 0x1f) (w := 5) rfl,
    or_eq_add (a := 128 * (odd % 2)) (k := 7) (by omega) (by omega),
    or_eq_add (k := 6) (by omega) (by omega)]
  rfl

theorem writeEven_eq (even : ℕ) : (even <<< 3) &&& 0xf8 = 8 * (even % 32) :=
  shiftLeft_and (w := 5) (k := 3) rfl even

theorem writeNext_eq (even odd : ℕ) :
    (((even <<< 3) &&& 0xf8) ||| 0x04) ||| ((odd >>> 9) &&& 0x01) =
      8 * (even % 32) + 4 + odd / 512 % 2 := by
  rw [writeEven_eq, shiftRight_and (m := 0x01) (w := 1) rfl,
    or_eq_add (a := 8 * (even % 32)) (k := 3) (by omega) (by omega),
    or_eq_add (k := 2) (by omega) (by omega)]
  rfl

theorem readOddNack_eq {byte midByte finalByte : ℕ} (hm : midByte < 256) :
    (((byte &&& 0x01) <<< 9) ||| (midByte <<< 1)) ||| ((finalByte &&& 0x80) >>> 7) =
      512 * (byte % 2) + 2 * midByte + finalByte / 128 % 2 := by
  rw [and_mask (m := 0x01) (w := 1) rfl, and_shiftRight (m := 0x80) (w := 1) rfl,
    Nat.shiftLeft_eq, Nat.shiftLeft_eq,
    or_eq_add (a := byte % 2 ^ 1 * 2 ^ 9) (k := 9) (by omega) (by omega),
    or_eq_add (k := 1) (by omega) (by omega)]
  omega

theorem readEvenNack_eq (byte nextByte : ℕ) :
    ((byte &&& 0x1f) <<< 5) ||| ((nextByte &&& 0xf8) >>> 3) =
      32 * (byte % 32) + nextByte / 8 % 32 := by
  rw [and_mask (m := 0x1f) (w := 5) rfl, and_shiftRight (m := 0xf8) (w := 5) rfl,
    Nat.shiftLeft_eq, or_eq_add (k := 5) (by omega) (by omega)]
  omega

theorem readNacks_last {byte nextByte : ℕ} (h : nextByte / 4 % 2 = 0) (rest : List ℕ) :
    readNacks byte (nextByte :: rest) =
      some ([32 * (byte % 32) + nextByte / 8 % 32], rest) := by
  have hmore : (nextByte &&& 0x04) >>> 2 = 0 := by
    rw [and_shiftRight (m := 0x04) (w := 1) rfl]
    exact h
  rcases rest with _ | ⟨b1, _ | ⟨b2, rest⟩⟩ <;>
    simp only [readNacks, hmore, zero_ne_one, ↓reduceIte, readEvenNack_eq]

theorem readNacks_next {byte nextByte midByte : ℕ} (h : nextByte / 4 % 2 = 1)
    (hm : midByte < 256) (finalByte : ℕ) (rest : List ℕ) :
    readNacks byte (nextByte :: midByte :: finalByte :: rest) =
      if finalByte / 64 % 2 = 1 then
        (readNacks finalByte rest).map fun nacks =>
          ((32 * (byte % 32) + nextByte / 8 % 32) ::
            (512 * (nextByte % 2) + 2 * midByte + finalByte / 128 % 2) :: nacks.1, nacks.2)
      else some ([32 * (byte % 32) + nextByte / 8 % 32,
        512 * (nextByte % 2) + 2 * midByte + finalByte / 128 % 2], rest) := by
  have hmore : (nextByte &&& 0x04) >>> 2 = 1 := by
    rw [and_shiftRight (m := 0x04) (w := 1) rfl]
    exact h
  have hagain : (finalByte &&& 0x40) >>> 6 = finalByte / 64 % 2 :=
    and_shiftRight (w := 1) (k := 6) rfl finalByte
  simp only [readNacks, hmore, ↓reduceIte, readEvenNack_eq, readOddNack_eq hm, hagain]

theorem readNacks_writeNacks : ∀ {odd even byte : ℕ} {nacks : List ℕ}, byte % 32 = even / 32 →
    (∀ nack ∈ even :: nacks, nack < 1024) → ∀ rest,
      readNacks byte ((writeNacks (odd :: even :: nacks)).drop 2 ++ rest) =
        some (even :: nacks, rest)
  | odd, even, byte, [], hb, _, rest => by
      have hbytes : (writeNacks [odd, even]).drop 2 ++ rest = (8 * (even % 32)) :: rest := by
        rw [← writeEven_eq]
        rfl
      have heven : 32 * (byte % 32) + 8 * (even % 32) / 8 % 32 = even := by omega
      rw [hbytes, readNacks_last (by omega), heven]
  | odd, even, byte, [odd'], hb, hlt, rest => by
      have ho : odd' < 1024 := hlt odd' (by simp)
      have hbytes : (writeNacks [odd, even, odd']).drop 2 ++ rest =
          (8 * (even % 32) + 4 + odd' / 512 % 2) :: (odd' / 2 % 256) :: (128 * (odd' % 2)) ::
            rest := by
        rw [← writeNext_eq, ← writeOdd_eq, ← writeLow_eq]
        rfl
      have heven : 32 * (byte % 32) + (8 * (even % 32) + 4 + odd' / 512 % 2) / 8 % 32 = even := by
        omega
      have hodd : 512 * ((8 * (even % 32) + 4 + odd' / 512 % 2) % 2) + 2 * (odd' / 2 % 256) +
          128 * (odd' % 2) / 128 % 2 = odd' := by omega
      rw [hbytes, readNacks_next (by omega) (by omega), if_neg (by omega), heven, hodd]
  | odd, even, byte, odd' :: even' :: nacks, hb, hlt, rest => by
      have ho : odd' < 1024 := hlt odd' (by simp)
      have he : even' < 1024 := hlt even' (by simp)
      have hbytes : (writeNacks (odd :: even :: odd' :: even' :: nacks)).drop 2 ++ rest =
          (8 * (even % 32) + 4 + odd' / 512 % 2) :: (odd' / 2 % 256) ::
            (128 * (odd' % 2) + 64 + even' / 32 % 32) ::
              ((writeNacks (odd' :: even' :: nacks)).drop 2 ++ rest) := by
        rw [← writeNext_eq, ← writeOdd_eq, ← writeHigh_eq]
        cases nacks <;> rfl
      have ih := @readNacks_writeNacks odd' even' (128 * (odd' % 2) + 64 + even' / 32 % 32) nacks
        (by omega) (fun nack hn => hlt nack (List.mem_cons_of_mem _ (List.mem_cons_of_mem _ hn)))
        rest
      have heven : 32 * (byte % 32) + (8 * (even % 32) + 4 + odd' / 512 % 2) / 8 % 32 = even := by
        omega
      have hodd : 512 * ((8 * (even % 32) + 4 + odd' / 512 % 2) % 2) + 2 * (odd' / 2 % 256) +
          (128 * (odd' % 2) + 64 + even' / 32 % 32) / 128 % 2 = odd' := by omega
      rw [hbytes, readNacks_next (by omega) (by omega), if_pos (by omega), ih, Option.map_some,
        heven, hodd]

theorem length_writeNacks : ∀ nack (nacks : List ℕ),
    (writeNacks (nack :: nacks)).length = nacks.length + 1 + (nacks.length + 2) / 2
  | _, [] => by simp [writeNacks]
  | _, [_] => by simp [writeNacks]
  | nack, even :: odd :: nacks => by
      have ih := length_writeNacks odd nacks
      simp only [writeNacks, List.length_cons, ih]
      omega

theorem ack_bytes {ackSn more high : ℕ} (ha : ackSn < 1024) (hm : more < 2) (hh : high < 2) :
    let byte1 := ackSn / 64
    let byte2 := 4 * (ackSn % 64) + 2 * more + high
    (byte1 &&& 0x80) >>> 7 = 0 ∧ (byte1 &&& 0x70) >>> 4 = 0 ∧
      (((byte1 &&& 0x0f) <<< 6) ||| ((byte2 &&& 0xfc) >>> 2)) % 1024 = ackSn ∧
      (byte2 &&& 0x02) >>> 1 = more := by
  dsimp only
  rw [and_shiftRight (m := 0x80) (w := 1) rfl, and_shiftRight (m := 0x70) (w := 3) rfl,
    and_mask (m := 0x0f) (w := 4) rfl, and_shiftRight (m := 0xfc) (w := 6) rfl,
    and_shiftRight (m := 0x02) (w := 1) rfl, Nat.shiftLeft_eq,
    or_eq_add (k := 6) (by omega) (by omega)]
  omega

theorem serializeControl_eq {h : LteRlcAmHeader} (hs : h.StatusPdu) :
    h.serialize = h.ackSn / 64 :: match h.nackSnList with
      | [] => [4 * (h.ackSn % 64)]
      | nack :: nacks =>
          (4 * (h.ackSn % 64) + 2 + nack / 512 % 2) :: writeNacks (nack :: nacks) := by
  have hne : h.dataControlBit ≠ dataPdu := by
    rw [hs.dataControlBit]
    decide
  have h1 : ((((controlPdu <<< 7) &&& 0x80) ||| ((h.controlPduType <<< 4) &&& 0x70)) |||
      ((h.ackSn >>> 6) &&& 0x0f)) = h.ackSn / 64 := by
    have hack := hs.ackSn_lt
    rw [hs.controlPduType, shiftRight_and (m := 0x0f) (w := 4) rfl]
    simp only [controlPdu, statusPdu, Nat.zero_shiftLeft, Nat.zero_and, Nat.zero_or]
    omega
  have h2 : (h.ackSn <<< 2) &&& 0xfc = 4 * (h.ackSn % 64) := shiftLeft_and (w := 6) (k := 2) rfl _
  have h3 : ∀ nack, (((h.ackSn <<< 2) &&& 0xfc) ||| 0x02) ||| ((nack >>> 9) &&& 0x01) =
      4 * (h.ackSn % 64) + 2 + nack / 512 % 2 := by
    intro nack
    rw [h2, shiftRight_and (m := 0x01) (w := 1) rfl,
      or_eq_add (a := 4 * (h.ackSn % 64)) (k := 2) (by omega) (by omega),
      or_eq_add (k := 1) (by omega) (by omega)]
    rfl
  unfold serialize serializeControl
  rw [if_neg hne, h1]
  cases h.nackSnList with
  | nil => rw [h2]
  | cons nack nacks => simp only [h3]

theorem length_serializeControl {h : LteRlcAmHeader} (hs : h.StatusPdu) :
    h.serialize.length = statusLength h.nackSnList.length := by
  rw [serializeControl_eq hs]
  cases h.nackSnList with
  | nil => rfl
  | cons nack nacks =>
    simp only [List.length_cons, length_writeNacks, statusLength]
    omega

structure SameStatus (h r : LteRlcAmHeader) : Prop where
  dataControlBit : r.dataControlBit = h.dataControlBit
  controlPduType : r.controlPduType = h.controlPduType
  ackSn : r.ackSn = h.ackSn
  nackSnList : r.nackSnList = h.nackSnList

theorem deserialize_status {h : LteRlcAmHeader} (hs : h.StatusPdu) (rest : List ℕ) :
    ∃ r : LteRlcAmHeader, ({} : LteRlcAmHeader).deserialize (h.serialize ++ rest) =
      some (r, rest) ∧ h.SameStatus r ∧ r.headerLength = h.headerLength := by
  have hbit : h.dataControlBit = 0 := hs.dataControlBit
  have htype : h.controlPduType = 0 := hs.controlPduType
  have hlt := hs.nackSnList_lt
  have hlen := hs.headerLength
  rw [serializeControl_eq hs]
  cases hn : h.nackSnList with
  | nil =>
    obtain ⟨f1, f2, f3, f4⟩ := @ack_bytes h.ackSn 0 0 hs.ackSn_lt (by omega) (by omega)
    simp only [Nat.mul_zero, Nat.add_zero] at f3 f4
    rw [hn] at hlen
    simp only [List.cons_append, List.nil_append, deserialize, f1, dataPdu, zero_ne_one,
      ↓reduceIte, deserializeControl, f4, readStatus, f2, f3]
    exact ⟨_, rfl, ⟨hbit.symm, htype.symm, rfl, hn.symm⟩, hlen.symm⟩
  | cons nack nacks =>
    rw [hn] at hlt hlen
    have hnack : nack < 1024 := hlt nack List.mem_cons_self
    obtain ⟨f1, f2, f3, f4⟩ := @ack_bytes h.ackSn 1 (nack / 512 % 2) hs.ackSn_lt
      (by omega) (by omega)
    simp only [Nat.mul_one] at f3 f4
    have hmid : nack / 2 % 256 < 256 := Nat.mod_lt _ (by omega)
    cases nacks with
    | nil =>
      have hbytes : writeNacks [nack] ++ rest = (nack / 2 % 256) :: (128 * (nack % 2)) :: rest := by
        rw [← writeOdd_eq, ← writeLow_eq]
        rfl
      have hmore : (128 * (nack % 2) &&& 0x40) >>> 6 = 0 := by
        rw [and_shiftRight (m := 0x40) (w := 1) rfl]
        omega
      have hfirst : 512 * ((4 * (h.ackSn % 64) + 2 + nack / 512 % 2) % 2) +
          2 * (nack / 2 % 256) + 128 * (nack % 2) / 128 % 2 = nack := by omega
      simp only [List.cons_append, hbytes, deserialize, f1, dataPdu, zero_ne_one, ↓reduceIte,
        deserializeControl, f4, hmore, readOddNack_eq hmid, hfirst, readStatus, f2, f3]
      exact ⟨_, rfl, ⟨hbit.symm, htype.symm, rfl, hn.symm⟩, hlen.symm⟩
    | cons even nacks =>
      have heven : even < 1024 := hlt even (by simp)
      have hbytes : writeNacks (nack :: even :: nacks) ++ rest = (nack / 2 % 256) ::
          (128 * (nack % 2) + 64 + even / 32 % 32) ::
            ((writeNacks (nack :: even :: nacks)).drop 2 ++ rest) := by
        rw [← writeOdd_eq, ← writeHigh_eq]
        cases nacks <;> rfl
      have hmore : ((128 * (nack % 2) + 64 + even / 32 % 32) &&& 0x40) >>> 6 = 1 := by
        rw [and_shiftRight (m := 0x40) (w := 1) rfl]
        omega
      have hfirst : 512 * ((4 * (h.ackSn % 64) + 2 + nack / 512 % 2) % 2) +
          2 * (nack / 2 % 256) + (128 * (nack % 2) + 64 + even / 32 % 32) / 128 % 2 = nack := by
        omega
      have hread := @readNacks_writeNacks nack even (128 * (nack % 2) + 64 + even / 32 % 32) nacks
        (by omega)
        (fun x hx => hlt x (List.mem_cons_of_mem _ hx)) rest
      simp only [List.cons_append, hbytes, deserialize, f1, dataPdu, zero_ne_one, ↓reduceIte,
        deserializeControl, f4, hmore, readOddNack_eq hmid, hfirst, hread, Option.map_some,
        readStatus, f2, f3]
      exact ⟨_, rfl, ⟨hbit.symm, htype.symm, rfl, hn.symm⟩, hlen.symm⟩

/-! ### Both -/

/-- As many bytes are written as `GetSerializedSize` says, a fresh header reads them all and has
the same fields. -/
def ReadsBack (h : LteRlcAmHeader) : Prop :=
  h.serialize.length = h.getSerializedSize ∧
    ∃ r : LteRlcAmHeader, ({} : LteRlcAmHeader).deserialize h.serialize = some (r, []) ∧
      r.getSerializedSize = h.serialize.length ∧
      (h.dataControlBit = dataPdu → h.SameData r ∧ r.segmentOffset = h.segmentOffset) ∧
      (h.dataControlBit = controlPdu → h.SameStatus r)

/-- The offset fits in its second byte and the length of the header in 16 bits. -/
def Recoverable (h : LteRlcAmHeader) : Prop :=
  (h.dataControlBit = dataPdu → h.segmentOffset < 256 ∧ h.lengthIndicators.length < 43688) ∧
    (h.dataControlBit = controlPdu → h.nackSnList.length < 43689)

theorem joined_offset_iff {v : ℕ} (h : v < 32768) : (v / 256) ||| (v % 256) = v ↔ v < 256 := by
  constructor
  · intro he
    rw [← he]
    exact Nat.or_lt_two_pow (n := 8) (by omega) (Nat.mod_lt _ (by omega))
  · intro hlt
    rw [show v / 256 = 0 by omega, Nat.zero_or, Nat.mod_eq_of_lt hlt]

theorem DataPdu.readsBack_iff {h : LteRlcAmHeader} (hd : h.DataPdu) :
    h.ReadsBack ↔ h.segmentOffset < 256 ∧ h.lengthIndicators.length < 43688 := by
  obtain ⟨r, hr, hsame, hlen, hoff⟩ := deserialize_data hd []
  rw [List.append_nil] at hr
  have hsize : h.serialize.length = h.getSerializedSize ↔ h.lengthIndicators.length < 43688 := by
    unfold getSerializedSize
    rw [length_serializeData hd, hd.headerLength]
    unfold pairsLength
    omega
  constructor
  · rintro ⟨h1, r', hr', _, hdata, _⟩
    obtain rfl : r = r' := by simpa [hr] using hr'
    have heq := (hdata hd.dataControlBit).2
    rw [hoff, joined_offset_iff hd.segmentOffset_lt] at heq
    exact ⟨heq, hsize.mp h1⟩
  · rintro ⟨h1, h2⟩
    refine ⟨hsize.mpr h2, r, hr, hlen.trans (hsize.mpr h2).symm, fun _ => ⟨hsame, ?_⟩, fun hc => ?_⟩
    · rw [hoff, joined_offset_iff hd.segmentOffset_lt]
      exact h1
    · rw [hd.dataControlBit] at hc
      exact absurd hc (by decide)

theorem StatusPdu.readsBack_iff {h : LteRlcAmHeader} (hs : h.StatusPdu) :
    h.ReadsBack ↔ h.nackSnList.length < 43689 := by
  obtain ⟨r, hr, hsame, hlen⟩ := deserialize_status hs []
  rw [List.append_nil] at hr
  have hsize : h.serialize.length = h.getSerializedSize ↔ h.nackSnList.length < 43689 := by
    unfold getSerializedSize
    rw [length_serializeControl hs, hs.headerLength]
    unfold statusLength
    omega
  constructor
  · rintro ⟨h1, _⟩
    exact hsize.mp h1
  · intro h1
    refine ⟨hsize.mpr h1, r, hr, hlen.trans (hsize.mpr h1).symm, fun hc => ?_, fun _ => hsame⟩
    rw [hs.dataControlBit] at hc
    exact absurd hc (by decide)

/-- A header comes back exactly when its segment offset is below 256 and its length fits. -/
theorem header_read_back_iff {h : LteRlcAmHeader} (hw : h.DataPdu ∨ h.StatusPdu) :
    h.ReadsBack ↔ h.Recoverable := by
  unfold Recoverable
  rcases hw with hd | hs
  · have hne : h.dataControlBit ≠ controlPdu := by
      rw [hd.dataControlBit]
      decide
    rw [hd.readsBack_iff]
    constructor
    · intro h1
      exact ⟨fun _ => h1, fun hc => absurd hc hne⟩
    · intro h1
      exact h1.1 hd.dataControlBit
  · have hne : h.dataControlBit ≠ dataPdu := by
      rw [hs.dataControlBit]
      decide
    rw [hs.readsBack_iff]
    constructor
    · intro h1
      exact ⟨fun hc => absurd hc hne, fun _ => h1⟩
    · intro h1
      exact h1.2 hs.dataControlBit

def segmentAt (offset : ℕ) : LteRlcAmHeader :=
  let h : LteRlcAmHeader := ({} : LteRlcAmHeader).setDataPdu.pushExtensionBit dataFieldFollows
  let h := (h.setSequenceNumber 5).setResegmentationFlag segment
  (((h.setLastSegmentFlag 1).setSegmentOffset offset).setFramingInfo lastByte).setPollingBit 0

theorem segmentAt_dataPdu (offset : ℕ) : (segmentAt offset).DataPdu where
  dataControlBit := rfl
  headerLength := show (4 + pushExtensionLength 1) % 65536 = (4 + pairsLength 0) % 65536 by decide
  resegmentationFlag_lt := show segment &&& 0x01 < 2 by decide
  pollingBit_lt := show 0 &&& 0x01 < 2 by decide
  framingInfo_lt := show lastByte &&& 0x03 < 4 by decide
  sequenceNumber_lt := show 5 < 1024 by decide
  lastSegmentFlag_lt := show 1 &&& 0x01 < 2 by decide
  segmentOffset_lt := by
    have hoff : offset &&& 0x7fff = offset % 32768 := and_mask (w := 15) rfl offset
    change offset &&& 0x7fff < 32768
    omega
  lengthIndicators_lt := fun _ hli => absurd hli List.not_mem_nil
  extensionBits := rfl

theorem short_offset_read_back : (segmentAt 255).ReadsBack :=
  (header_read_back_iff (Or.inl (segmentAt_dataPdu 255))).mpr
    ⟨fun _ => by decide, fun hc => absurd hc (by decide)⟩

/-- The offset 256 comes back as 1. -/
theorem offset_not_read_back : (segmentAt 256).DataPdu ∧ ¬ (segmentAt 256).ReadsBack := by
  have hd := segmentAt_dataPdu 256
  refine ⟨hd, fun h => ?_⟩
  have := (hd.readsBack_iff.mp h).1
  exact absurd this (by decide)

end LteRlcAmHeader
end NetGymSim.Lte

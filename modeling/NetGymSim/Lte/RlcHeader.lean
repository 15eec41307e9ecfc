import NetGymSim.Lte.SduSegmentation

/-!
# `LteRlcHeader`

The header of an RLC UM data PDU: two bytes with the framing info and the sequence number, and
the pairs of an extension bit and a length indicator. What its setters build is read back.
-/

namespace NetGymSim.Lte
open NetGymSim.Lib

/-- The constructor leaves the values that mark a header as not set. -/
structure LteRlcHeader where
  headerLength : ℕ := 0
  framingInfo : ℕ := 0xff
  sequenceNumber : ℕ := 0xfffa % 1024
  extensionBits : List ℕ := []
  lengthIndicators : List ℕ := []
  deriving DecidableEq

namespace LteRlcHeader

def setFramingInfo (h : LteRlcHeader) (framingInfo : ℕ) : LteRlcHeader :=
  { h with framingInfo := framingInfo &&& 0x03 }

def setSequenceNumber (h : LteRlcHeader) (sequenceNumber : ℕ) : LteRlcHeader :=
  { h with sequenceNumber := sequenceNumber }

/-- The first extension bit stands in the fixed part. `m_headerLength` is of 16 bits. -/
def pushExtensionBit (h : LteRlcHeader) (extensionBit : ℕ) : LteRlcHeader :=
  let count := h.extensionBits.length + 1
  { h with
    extensionBits := h.extensionBits ++ [extensionBit]
    headerLength :=
      if count = 1 then 2
      else if count % 2 ≠ 0 then (h.headerLength + 1) % 65536
      else (h.headerLength + 2) % 65536 }

def pushLengthIndicator (h : LteRlcHeader) (lengthIndicator : ℕ) : LteRlcHeader :=
  { h with lengthIndicators := h.lengthIndicators ++ [lengthIndicator] }

instance : PduHeader LteRlcHeader where
  pushExtensionBit := pushExtensionBit
  pushLengthIndicator := pushLengthIndicator

def getSerializedSize (h : LteRlcHeader) : ℕ := h.headerLength

def serialize (h : LteRlcHeader) : List ℕ :=
  (((h.framingInfo <<< 3) &&& 0x18) ||| ((h.extensionBits.headD 0 <<< 2) &&& 0x04) |||
      ((h.sequenceNumber >>> 8) &&& 0x0003)) ::
    (h.sequenceNumber &&& 0x00ff) :: writePairs h.extensionBits.tail h.lengthIndicators

def readFixed (h : LteRlcHeader) (byte1 byte2 : ℕ) : LteRlcHeader :=
  { h with
    headerLength := 2
    framingInfo := (byte1 &&& 0x18) >>> 3
    sequenceNumber := (((byte1 &&& 0x03) <<< 8) ||| byte2) % 1024
    extensionBits := h.extensionBits ++ [(byte1 &&& 0x04) >>> 2] }

def appendPairs (h : LteRlcHeader) (extensionBits lengthIndicators : List ℕ) : LteRlcHeader :=
  { h with
    headerLength := (h.headerLength + pairsLength lengthIndicators.length) % 65536
    extensionBits := h.extensionBits ++ extensionBits
    lengthIndicators := h.lengthIndicators ++ lengthIndicators }

def deserialize (h : LteRlcHeader) : List ℕ → Option (LteRlcHeader × List ℕ)
  | byte1 :: byte2 :: rest =>
      let h := h.readFixed byte1 byte2
      if (byte1 &&& 0x04) >>> 2 = dataFieldFollows then some (h, rest)
      else (readPairs rest).map fun pairs => (h.appendPairs pairs.1.1 pairs.1.2, pairs.2)
  | _ => none

/-! ### What the setters build is read back -/

/-- The headers that the setters build. -/
structure UmdPdu (h : LteRlcHeader) : Prop where
  headerLength : h.headerLength = (2 + pairsLength h.lengthIndicators.length) % 65536
  framingInfo_lt : h.framingInfo < 4
  sequenceNumber_lt : h.sequenceNumber < 1024
  lengthIndicators_lt : ∀ li ∈ h.lengthIndicators, li < 2048
  extensionBits : h.extensionBits = extensions (h.lengthIndicators.length + 1)

theorem serialize_eq {h : LteRlcHeader} (hd : h.UmdPdu) :
    h.serialize =
      (8 * h.framingInfo + 4 * (if h.lengthIndicators.length = 0 then 0 else 1) +
          h.sequenceNumber / 256) ::
        h.sequenceNumber % 256 ::
          writePairs (extensions h.lengthIndicators.length) h.lengthIndicators := by
  have hfi : (h.framingInfo <<< 3) &&& 0x18 = 8 * h.framingInfo :=
    shiftLeft_and_of_lt (w := 2) (k := 3) rfl hd.framingInfo_lt
  have he : ((if h.lengthIndicators.length = 0 then 0 else 1) <<< 2) &&& 0x04 =
      4 * (if h.lengthIndicators.length = 0 then 0 else 1) :=
    shiftLeft_and_of_lt (w := 1) (k := 2) rfl (by split_ifs <;> decide)
  have hhigh : (h.sequenceNumber >>> 8) &&& 0x0003 = h.sequenceNumber / 256 := by
    have hlt := hd.sequenceNumber_lt
    rw [shiftRight_and (m := 0x03) (w := 2) rfl]
    omega
  have hlow : h.sequenceNumber &&& 0x00ff = h.sequenceNumber % 256 := and_mask (w := 8) rfl _
  unfold serialize
  rw [hd.extensionBits, headD_extensions, tail_extensions, hfi, he, hhigh, hlow,
    or_eq_add (a := 8 * h.framingInfo) (k := 3) (by omega) (by split_ifs <;> decide),
    or_eq_add (k := 2) (by omega) (by have := hd.sequenceNumber_lt; omega)]

theorem length_serialize {h : LteRlcHeader} (hd : h.UmdPdu) :
    h.serialize.length = 2 + pairsLength h.lengthIndicators.length := by
  rw [serialize_eq hd]
  simp only [List.length_cons, length_writePairs]
  omega

theorem fixed_fields {fi e sn : ℕ} (hfi : fi < 4) (he : e < 2) (hsn : sn < 1024) :
    let byte1 := 8 * fi + 4 * e + sn / 256
    (byte1 &&& 0x18) >>> 3 = fi ∧ (byte1 &&& 0x04) >>> 2 = e ∧
      (((byte1 &&& 0x03) <<< 8) ||| (sn % 256)) % 1024 = sn := by
  dsimp only
  rw [and_shiftRight (m := 0x18) (w := 2) rfl, and_shiftRight (m := 0x04) (w := 1) rfl,
    and_mask (m := 0x03) (w := 2) rfl, Nat.shiftLeft_eq, or_eq_add (k := 8) (by omega) (by omega)]
  omega

theorem deserialize_serialize {h : LteRlcHeader} (hd : h.UmdPdu) (rest : List ℕ) :
    ({} : LteRlcHeader).deserialize (h.serialize ++ rest) = some (h, rest) := by
  have he : (if h.lengthIndicators.length = 0 then 0 else 1) < 2 := by split_ifs <;> decide
  obtain ⟨f1, f2, f3⟩ := fixed_fields hd.framingInfo_lt he hd.sequenceNumber_lt
  have hext := hd.extensionBits
  have hlen := hd.headerLength
  have hlt := hd.lengthIndicators_lt
  rw [serialize_eq hd]
  simp only [List.cons_append, deserialize, readFixed, f1, f2, f3]
  by_cases hn : h.lengthIndicators.length = 0
  · have hnil : h.lengthIndicators = [] := List.length_eq_zero_iff.mp hn
    obtain ⟨headerLength, framingInfo, sequenceNumber, extensionBits, lengthIndicators⟩ := h
    dsimp only at hnil hext hlen
    subst hnil hext hlen
    rfl
  · have hne : h.lengthIndicators ≠ [] := fun hnil => hn (by rw [hnil]; rfl)
    have hpairs := readPairs_writePairs hne hlt rest
    have hbits : extensions (h.lengthIndicators.length + 1) =
        1 :: extensions h.lengthIndicators.length := by
      obtain ⟨n, hn'⟩ := Nat.exists_eq_succ_of_ne_zero hn
      rw [hn']
      rfl
    rw [if_neg hn, if_neg (by decide), hpairs]
    obtain ⟨headerLength, framingInfo, sequenceNumber, extensionBits, lengthIndicators⟩ := h
    dsimp only at hbits hext hlen ⊢
    subst hext hlen
    rw [hbits]
    rfl

end LteRlcHeader
end NetGymSim.Lte

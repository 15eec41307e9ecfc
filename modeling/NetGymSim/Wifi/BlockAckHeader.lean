import NetGymSim.Wifi.RecipientBlockAck
import Mathlib.Data.Nat.Bitwise

/-!
# `CtrlBAckResponseHeader`

A BlockAck carries a control field, and for each bitmap a starting sequence control whose
fragment number encodes the length of the bitmap. The Multi-STA variant has one subfield
for each recipient. A fatal error, and a read past the end, is `none`.
-/

namespace NetGymSim.Wifi
open NetGymSim.Lib

inductive BlockAckVariant
  | basic
  | compressed
  | extendedCompressed
  | multiTid
  | multiSta
  deriving DecidableEq

structure BlockAckType where
  variant : BlockAckVariant
  bitmapLen : List ℕ
  deriving DecidableEq

def BlockAckType.ofVariant : BlockAckVariant → BlockAckType
  | .basic => ⟨.basic, [128]⟩
  | .compressed => ⟨.compressed, [8]⟩
  | .extendedCompressed => ⟨.extendedCompressed, [8]⟩
  | .multiTid => ⟨.multiTid, []⟩
  | .multiSta => ⟨.multiSta, []⟩

structure BaInfoInstance where
  aidTidInfo : ℕ := 0
  startingSeq : ℕ := 0
  bitmap : List ℕ := []
  ra : List ℕ := [0, 0, 0, 0, 0, 0]
  deriving DecidableEq

structure CtrlBAckResponseHeader where
  baAckPolicy : Bool := false
  baType : BlockAckType
  tidInfo : ℕ := 0
  baInfo : List BaInfoInstance
  deriving DecidableEq

/-! ### Fields -/

namespace BaInfoInstance

def getAid11 (info : BaInfoInstance) : ℕ := info.aidTidInfo &&& 0x07ff
def getAckType (info : BaInfoInstance) : Bool := (info.aidTidInfo >>> 11) &&& 0x0001 ≠ 0
def getTid (info : BaInfoInstance) : ℕ := (info.aidTidInfo >>> 12) &&& 0x000f

def indexInBitmap (info : BaInfoInstance) (seq : ℕ) : ℕ :=
  if seq ≥ info.startingSeq then seq - info.startingSeq else 4096 - info.startingSeq + seq

end BaInfoInstance

namespace CtrlBAckResponseHeader

def setType (h : CtrlBAckResponseHeader) (type : BlockAckType) : CtrlBAckResponseHeader :=
  { h with
    baType := type
    baInfo := type.bitmapLen.map fun len => { bitmap := List.replicate len 0 } }

def ofType (type : BlockAckType) : CtrlBAckResponseHeader :=
  setType { baType := .ofVariant .basic, baInfo := [] } type

def info (h : CtrlBAckResponseHeader) (index : ℕ) : BaInfoInstance := h.baInfo.getD index {}
def len (h : CtrlBAckResponseHeader) (index : ℕ) : ℕ := h.baType.bitmapLen.getD index 0

def modifyInfo (h : CtrlBAckResponseHeader) (index : ℕ) (f : BaInfoInstance → BaInfoInstance) :
    CtrlBAckResponseHeader := { h with baInfo := h.baInfo.modify index f }

def setAid11 (h : CtrlBAckResponseHeader) (aid index : ℕ) : CtrlBAckResponseHeader :=
  h.modifyInfo index fun info => { info with aidTidInfo := info.aidTidInfo ||| (aid &&& 0x07ff) }

def setTidInfo (h : CtrlBAckResponseHeader) (tid index : ℕ) : CtrlBAckResponseHeader :=
  if h.baType.variant ≠ .multiSta then { h with tidInfo := tid }
  else h.modifyInfo index fun info =>
    { info with aidTidInfo := info.aidTidInfo ||| ((tid &&& 0x000f) <<< 12) }

def setStartingSequence (h : CtrlBAckResponseHeader) (seq index : ℕ) : CtrlBAckResponseHeader :=
  h.modifyInfo index fun info => { info with startingSeq := seq }

def resetBitmap (h : CtrlBAckResponseHeader) (index : ℕ) : CtrlBAckResponseHeader :=
  h.modifyInfo index fun info => { info with bitmap := List.replicate (h.len index) 0 }

def nAckedMpdus (h : CtrlBAckResponseHeader) (index : ℕ) : ℕ :=
  if h.baType.variant = .basic then h.len index * 8 / 16 else h.len index * 8

def isInBitmap (h : CtrlBAckResponseHeader) (seq index : ℕ) : Bool :=
  ((seq : ℤ) - (h.info index).startingSeq + 4096).tmod 4096 < h.nAckedMpdus index

def setReceivedPacket (h : CtrlBAckResponseHeader) (seq index : ℕ) :
    Option CtrlBAckResponseHeader :=
  if ¬ h.isInBitmap seq index then some h
  else match h.baType.variant with
    | .basic =>
        let i := (h.info index).indexInBitmap seq * 2
        some (h.modifyInfo index fun info =>
          { info with bitmap := info.bitmap.modify i (· ||| 0x01) })
    | .compressed | .extendedCompressed | .multiSta =>
        let i := (h.info index).indexInBitmap seq
        some (h.modifyInfo index fun info =>
          { info with bitmap := info.bitmap.modify (i / 8) (· ||| (0x01 <<< (i % 8))) })
    | .multiTid => none

def isPacketReceived (h : CtrlBAckResponseHeader) (seq index : ℕ) : Option Bool :=
  if h.baType.variant = .multiSta ∧ (h.info index).getAckType ∧ (h.info index).getTid = 14 then
    some true
  else if ¬ h.isInBitmap seq index then some false
  else match h.baType.variant with
    | .basic => some false
    | .compressed | .extendedCompressed | .multiSta =>
        let i := (h.info index).indexInBitmap seq
        some (((h.info index).bitmap.getD (i / 8) 0 &&& (0x01 <<< (i % 8))) ≠ 0)
    | .multiTid => none

/-! ### Writing -/

def writeHtolsbU16 (v : ℕ) : List ℕ := [v % 256, v / 256 % 256]

def readLsbtohU16 : List ℕ → Option (ℕ × List ℕ)
  | low :: high :: rest => some (low + 256 * high, rest)
  | _ => none

def readBytes (n : ℕ) (bytes : List ℕ) : Option (List ℕ × List ℕ) :=
  if n ≤ bytes.length then some (bytes.take n, bytes.drop n) else none

def variantBits : BlockAckVariant → ℕ
  | .basic => 0
  | .compressed => 0x02
  | .extendedCompressed => 0x01
  | .multiTid => 0x03
  | .multiSta => 0x0b

def getBaControl (h : CtrlBAckResponseHeader) : ℕ :=
  let res := (if h.baAckPolicy then 0x1 else 0) ||| (variantBits h.baType.variant <<< 1)
  if h.baType.variant ≠ .multiSta then res ||| ((h.tidInfo <<< 12) &&& (0xf <<< 12)) else res

def fragmentNumber (variant : BlockAckVariant) (len : ℕ) : ℕ :=
  match variant with
  | .compressed => if len = 32 then 0x0004 else 0
  | .multiSta =>
      if len = 16 then 0x0002 else if len = 32 then 0x0004 else if len = 4 then 0x0006 else 0
  | _ => 0

def getStartingSequenceControl (h : CtrlBAckResponseHeader) (index : ℕ) : ℕ :=
  (((h.info index).startingSeq <<< 4) &&& 0xfff0) ||| fragmentNumber h.baType.variant (h.len index)

def serializeInfo (h : CtrlBAckResponseHeader) (index : ℕ) : List ℕ :=
  let info := h.info index
  writeHtolsbU16 info.aidTidInfo ++
    if info.getAid11 ≠ 2045 then
      if info.bitmap ≠ [] then writeHtolsbU16 (h.getStartingSequenceControl index) ++ info.bitmap
      else []
    else [0, 0, 0, 0] ++ info.ra

/-- Only the configured type is read here, not the records. -/
def getSerializedSize (h : CtrlBAckResponseHeader) : ℕ :=
  2 + match h.baType.variant with
    | .basic | .compressed | .extendedCompressed => 2 + h.len 0
    | .multiTid => (2 + 2 + 8) * (h.tidInfo + 1)
    | .multiSta =>
        (h.baType.bitmapLen.map fun len => 2 + (if len > 0 then 2 else 0) + len).sum

def serialize (h : CtrlBAckResponseHeader) : Option (List ℕ) :=
  match h.baType.variant with
  | .basic | .compressed | .extendedCompressed =>
      some (writeHtolsbU16 h.getBaControl ++
        (writeHtolsbU16 (h.getStartingSequenceControl 0) ++ (h.info 0).bitmap))
  | .multiSta =>
      some (writeHtolsbU16 h.getBaControl ++
        (List.range h.baInfo.length).flatMap h.serializeInfo)
  | .multiTid => none

/-! ### Reading -/

def setBaControl (h : CtrlBAckResponseHeader) (ba : ℕ) : Option CtrlBAckResponseHeader := do
  let h := { h with baAckPolicy := decide ((ba &&& 0x01) = 1) }
  let bits := (ba >>> 1) &&& 0x0f
  let h ← if bits = 0x03 then some (h.setType (.ofVariant .multiTid))
    else if bits = 0x01 then some (h.setType (.ofVariant .extendedCompressed))
    else if bits = 0x02 then some (h.setType (.ofVariant .compressed))
    else if bits = 0 then some (h.setType (.ofVariant .basic))
    else if bits = 0x0b then some (h.setType (.ofVariant .multiSta))
    else none
  return if h.baType.variant ≠ .multiSta then { h with tidInfo := (ba >>> 12) &&& 0x0f } else h

def bitmapLenOf (variant : BlockAckVariant) (seqControl : ℕ) : Option ℕ :=
  if seqControl &&& 0x0001 = 1 then none
  else if (seqControl >>> 3) &&& 0x0001 ≠ 0 then none
  else match variant, (seqControl >>> 1) &&& 0x0003 with
    | .compressed, 0 => some 8
    | .compressed, 2 => some 32
    | .multiSta, 0 => some 8
    | .multiSta, 1 => some 16
    | .multiSta, 2 => some 32
    | .multiSta, 3 => some 4
    | _, _ => none

def withBitmapLen (h : CtrlBAckResponseHeader) (seqControl index : ℕ) :
    Option CtrlBAckResponseHeader :=
  match h.baType.variant with
  | .compressed =>
      (bitmapLenOf .compressed seqControl).map fun len => h.setType ⟨.compressed, [len]⟩
  | .multiSta =>
      (bitmapLenOf .multiSta seqControl).map fun len =>
        { h with
          baType := ⟨.multiSta, h.baType.bitmapLen.set index len⟩
          baInfo := h.baInfo.modify index fun info =>
            { info with bitmap := List.replicate len 0 } }
  | _ => some h

def setStartingSequenceControl (h : CtrlBAckResponseHeader) (seqControl index : ℕ) :
    Option CtrlBAckResponseHeader :=
  (h.withBitmapLen seqControl index).map fun h =>
    h.setStartingSequence ((seqControl >>> 4) &&& 0x0fff) index

def deserializeBitmap (h : CtrlBAckResponseHeader) (index : ℕ) (bytes : List ℕ) :
    Option (CtrlBAckResponseHeader × List ℕ) := do
  let (bitmap, rest) ← readBytes (h.len index) bytes
  return (h.modifyInfo index fun info => { info with bitmap := bitmap }, rest)

def deserializeInfo (h : CtrlBAckResponseHeader) (bytes : List ℕ) :
    Option (CtrlBAckResponseHeader × List ℕ) := do
  let index := h.baInfo.length
  let (aidTidInfo, bytes) ← readLsbtohU16 bytes
  let info : BaInfoInstance := { aidTidInfo := aidTidInfo }
  let h := { h with
    baType := ⟨.multiSta, h.baType.bitmapLen ++ [0]⟩
    baInfo := h.baInfo ++ [info] }
  if info.getAid11 ≠ 2045 then
    if ¬ info.getAckType ∧ info.getTid < 8 then
      let (seqControl, bytes) ← readLsbtohU16 bytes
      let h ← h.setStartingSequenceControl seqControl index
      h.deserializeBitmap index bytes
    else return (h, bytes)
  else
    let (_, bytes) ← readBytes 4 bytes
    let (ra, bytes) ← readBytes 6 bytes
    return ({ h with
      baType := ⟨.multiSta, h.baType.bitmapLen.set index 8⟩
      baInfo := h.baInfo.modify index fun info => { info with ra := ra } }, bytes)

def deserializeInfos : ℕ → CtrlBAckResponseHeader → List ℕ → Option CtrlBAckResponseHeader
  | 0, h, bytes => if bytes = [] then some h else none
  | fuel + 1, h, bytes =>
      if bytes = [] then some h
      else do
        let (h, bytes) ← h.deserializeInfo bytes
        deserializeInfos fuel h bytes

def deserialize (bytes : List ℕ) : Option CtrlBAckResponseHeader := do
  let (ba, bytes) ← readLsbtohU16 bytes
  let h ← (ofType (.ofVariant .basic)).setBaControl ba
  match h.baType.variant with
  | .basic | .compressed | .extendedCompressed =>
      let (seqControl, bytes) ← readLsbtohU16 bytes
      let h ← h.setStartingSequenceControl seqControl 0
      let (h, _) ← h.deserializeBitmap 0 bytes
      return h
  | .multiSta => deserializeInfos bytes.length h bytes
  | .multiTid => none

/-- `Deserialize` over the previous contents of an object, with the number of bytes read. The
loop over the subfields only ends when nothing remains. -/
def deserializeInto (h : CtrlBAckResponseHeader) (bytes : List ℕ) :
    Option (CtrlBAckResponseHeader × ℕ) := do
  let (ba, rest) ← readLsbtohU16 bytes
  let h ← h.setBaControl ba
  match h.baType.variant with
  | .basic | .compressed | .extendedCompressed =>
      let (seqControl, rest) ← readLsbtohU16 rest
      let h ← h.setStartingSequenceControl seqControl 0
      let (h, rest) ← h.deserializeBitmap 0 rest
      return (h, bytes.length - rest.length)
  | .multiSta => (deserializeInfos rest.length h rest).map fun h => (h, bytes.length)
  | .multiTid => none

/-! ### `FillBlockAckBitmap` -/

def fillBlockAckBitmap (h : CtrlBAckResponseHeader) (scoreboard : BlockAckWindow) (index : ℕ) :
    Option CtrlBAckResponseHeader :=
  match h.baType.variant with
  | .basic | .multiTid => none
  | .compressed | .extendedCompressed | .multiSta =>
      let ssn := scoreboard.winStart
      (List.range scoreboard.winSize).foldlM
        (fun h i =>
          if scoreboard.get i then h.setReceivedPacket ((ssn + i) % 4096) index else some h)
        ((h.setStartingSequence ssn index).resetBitmap index)

end CtrlBAckResponseHeader
end NetGymSim.Wifi

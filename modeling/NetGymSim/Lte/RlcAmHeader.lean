import NetGymSim.Lte.SduSegmentation

/-!
# `LteRlcAmHeader`

One class for the two PDUs of RLC AM: data PDUs, with a sequence number, a segment offset and
pairs of an extension bit and a length indicator, and STATUS PDUs, with an acknowledged
sequence number and a list of those that are missing. The setters keep the length of the
header as they go. Sequence numbers are kept by their value: the modulus base of a number
taken from a header is always set before it is compared.
-/

namespace NetGymSim.Lte
open NetGymSim.Lib

def controlPdu : ℕ := 0
def dataPdu : ℕ := 1
def statusPdu : ℕ := 0

/-- `PDU` and `SEGMENT`. -/
def wholePdu : ℕ := 0
def segment : ℕ := 1

/-- The constructor leaves the values that mark a header as not set. `m_lastSegmentFlag` is not
initialised there. -/
structure LteRlcAmHeader where
  headerLength : ℕ := 0
  dataControlBit : ℕ := 0xff
  resegmentationFlag : ℕ := 0xff
  pollingBit : ℕ := 0xff
  framingInfo : ℕ := 0xff
  sequenceNumber : ℕ := 0xfffa % 1024
  extensionBits : List ℕ := []
  lengthIndicators : List ℕ := []
  lastSegmentFlag : ℕ := 0
  segmentOffset : ℕ := 0xffff
  lastOffset : ℕ := 0xffff
  controlPduType : ℕ := 0xff
  ackSn : ℕ := 0xffff % 1024
  nackSnList : List ℕ := []
  deriving DecidableEq

namespace LteRlcAmHeader

/-! ### Setters -/

def lengthen (h : LteRlcAmHeader) (n : ℕ) : LteRlcAmHeader :=
  { h with headerLength := (h.headerLength + n) % 65536 }

def setDataPdu (h : LteRlcAmHeader) : LteRlcAmHeader :=
  { h with headerLength := 4, dataControlBit := dataPdu }

def setControlPdu (h : LteRlcAmHeader) (controlPduType : ℕ) : LteRlcAmHeader :=
  { h with headerLength := 2, dataControlBit := controlPdu, controlPduType := controlPduType }

def setFramingInfo (h : LteRlcAmHeader) (framingInfo : ℕ) : LteRlcAmHeader :=
  { h with framingInfo := framingInfo &&& 0x03 }

def setSequenceNumber (h : LteRlcAmHeader) (sequenceNumber : ℕ) : LteRlcAmHeader :=
  { h with sequenceNumber := sequenceNumber }

def pushExtensionBit (h : LteRlcAmHeader) (extensionBit : ℕ) : LteRlcAmHeader :=
  { h with extensionBits := h.extensionBits ++ [extensionBit] }.lengthen
    (pushExtensionLength (h.extensionBits.length + 1))

def pushLengthIndicator (h : LteRlcAmHeader) (lengthIndicator : ℕ) : LteRlcAmHeader :=
  { h with lengthIndicators := h.lengthIndicators ++ [lengthIndicator] }

instance : PduHeader LteRlcAmHeader where
  pushExtensionBit := pushExtensionBit
  pushLengthIndicator := pushLengthIndicator

def setResegmentationFlag (h : LteRlcAmHeader) (resegFlag : ℕ) : LteRlcAmHeader :=
  { h with resegmentationFlag := resegFlag &&& 0x01 }

def setPollingBit (h : LteRlcAmHeader) (pollingBit : ℕ) : LteRlcAmHeader :=
  { h with pollingBit := pollingBit &&& 0x01 }

def setLastSegmentFlag (h : LteRlcAmHeader) (lsf : ℕ) : LteRlcAmHeader :=
  { h with lastSegmentFlag := lsf &&& 0x01 }

def setSegmentOffset (h : LteRlcAmHeader) (segmentOffset : ℕ) : LteRlcAmHeader :=
  { h with segmentOffset := segmentOffset &&& 0x7fff }

def setAckSn (h : LteRlcAmHeader) (ackSn : ℕ) : LteRlcAmHeader := { h with ackSn := ackSn }

/-- The parameter is of 16 bits; the subtraction is one of integers. -/
def oneMoreNackWouldFitIn (h : LteRlcAmHeader) (bytes : ℕ) : Bool :=
  if h.nackSnList.length % 2 = 0 then h.headerLength < bytes % 65536
  else (h.headerLength : ℤ) < (bytes % 65536 : ℕ) - 1

def pushNack (h : LteRlcAmHeader) (nack : ℕ) : LteRlcAmHeader :=
  { h with nackSnList := h.nackSnList ++ [nack] }.lengthen
    (if (h.nackSnList.length + 1) % 2 = 0 then 1 else 2)

def isNackPresent (h : LteRlcAmHeader) (nack : ℕ) : Bool := nack ∈ h.nackSnList

def getSerializedSize (h : LteRlcAmHeader) : ℕ := h.headerLength

/-! ### Writing -/

/-- The loop over the NACKs from the first of a pair on: its highest bit is already written. -/
def writeNacks : List ℕ → List ℕ
  | [] => []
  | [odd] => [(odd >>> 1) &&& 0xff, (odd <<< 7) &&& 0x80]
  | [odd, even] =>
      [(odd >>> 1) &&& 0xff, (((odd <<< 7) &&& 0x80) ||| 0x40) ||| ((even >>> 5) &&& 0x1f),
        (even <<< 3) &&& 0xf8]
  | odd :: even :: odd' :: nacks =>
      ((odd >>> 1) &&& 0xff) :: ((((odd <<< 7) &&& 0x80) ||| 0x40) ||| ((even >>> 5) &&& 0x1f)) ::
        ((((even <<< 3) &&& 0xf8) ||| 0x04) ||| ((odd' >>> 9) &&& 0x01)) ::
          writeNacks (odd' :: nacks)

def serializeData (h : LteRlcAmHeader) : List ℕ :=
  [((((((dataPdu <<< 7) &&& 0x80) ||| ((h.resegmentationFlag <<< 6) &&& 0x40)) |||
        ((h.pollingBit <<< 5) &&& 0x20)) ||| ((h.framingInfo <<< 3) &&& 0x18)) |||
      ((h.extensionBits.headD 0 <<< 2) &&& 0x04)) ||| ((h.sequenceNumber >>> 8) &&& 0x0003),
    h.sequenceNumber &&& 0x00ff,
    ((h.lastSegmentFlag <<< 7) &&& 0x80) ||| ((h.segmentOffset >>> 8) &&& 0x007f),
    h.segmentOffset &&& 0x00ff] ++ writePairs h.extensionBits.tail h.lengthIndicators

def serializeControl (h : LteRlcAmHeader) : List ℕ :=
  ((((controlPdu <<< 7) &&& 0x80) ||| ((h.controlPduType <<< 4) &&& 0x70)) |||
      ((h.ackSn >>> 6) &&& 0x0f)) ::
    match h.nackSnList with
    | [] => [(h.ackSn <<< 2) &&& 0xfc]
    | nack :: nacks =>
        ((((h.ackSn <<< 2) &&& 0xfc) ||| 0x02) ||| ((nack >>> 9) &&& 0x01)) ::
          writeNacks (nack :: nacks)

def serialize (h : LteRlcAmHeader) : List ℕ :=
  if h.dataControlBit = dataPdu then h.serializeData else h.serializeControl

/-! ### Reading -/

/-- The loop that reads NACKs as long as the last one said that more follow. The bits already
read of the next NACK are in `byte`. -/
def readNacks (byte : ℕ) : List ℕ → Option (List ℕ × List ℕ)
  | nextByte :: rest =>
      let even := ((byte &&& 0x1f) <<< 5) ||| ((nextByte &&& 0xf8) >>> 3)
      if (nextByte &&& 0x04) >>> 2 = 1 then
        match rest with
        | midByte :: finalByte :: rest =>
            let odd := (((nextByte &&& 0x01) <<< 9) ||| (midByte <<< 1)) |||
              ((finalByte &&& 0x80) >>> 7)
            if (finalByte &&& 0x40) >>> 6 = 1 then
              (readNacks finalByte rest).map fun nacks => (even :: odd :: nacks.1, nacks.2)
            else some ([even, odd], rest)
        | _ => none
      else some ([even], rest)
  | [] => none

def statusLength (n : ℕ) : ℕ := 2 + n + (n + 1) / 2

def readFixed (h : LteRlcAmHeader) (byte1 byte2 byte3 byte4 : ℕ) : LteRlcAmHeader :=
  { h with
    headerLength := h.headerLength + 3
    resegmentationFlag := (byte1 &&& 0x40) >>> 6
    pollingBit := (byte1 &&& 0x20) >>> 5
    framingInfo := (byte1 &&& 0x18) >>> 3
    sequenceNumber := (((byte1 &&& 0x03) <<< 8) ||| byte2) % 1024
    lastSegmentFlag := (byte3 &&& 0x80) >>> 7
    segmentOffset := (byte3 &&& 0x7f) ||| byte4
    extensionBits := h.extensionBits ++ [(byte1 &&& 0x04) >>> 2] }

def appendPairs (h : LteRlcAmHeader) (size : ℕ) (extensionBits lengthIndicators : List ℕ) :
    LteRlcAmHeader :=
  let headerLength := (h.headerLength + pairsLength lengthIndicators.length) % 65536
  { h with
    headerLength := headerLength
    extensionBits := h.extensionBits ++ extensionBits
    lengthIndicators := h.lengthIndicators ++ lengthIndicators
    lastOffset :=
      if h.resegmentationFlag = segment then
        (h.segmentOffset + size + (65536 - headerLength)) % 65536
      else h.lastOffset }

def deserializeData (h : LteRlcAmHeader) (size byte1 : ℕ) :
    List ℕ → Option (LteRlcAmHeader × List ℕ)
  | byte2 :: byte3 :: byte4 :: rest =>
      let h := h.readFixed byte1 byte2 byte3 byte4
      if (byte1 &&& 0x04) >>> 2 = dataFieldFollows then some (h, rest)
      else (readPairs rest).map fun pairs => (h.appendPairs size pairs.1.1 pairs.1.2, pairs.2)
  | _ => none

def readStatus (h : LteRlcAmHeader) (byte1 byte2 : ℕ) (nacks : List ℕ) : LteRlcAmHeader :=
  { h with
    headerLength := statusLength nacks.length % 65536
    controlPduType := (byte1 &&& 0x70) >>> 4
    ackSn := (((byte1 &&& 0x0f) <<< 6) ||| ((byte2 &&& 0xfc) >>> 2)) % 1024
    nackSnList := h.nackSnList ++ nacks }

def deserializeControl (h : LteRlcAmHeader) (byte1 : ℕ) :
    List ℕ → Option (LteRlcAmHeader × List ℕ)
  | byte2 :: rest =>
      if (byte2 &&& 0x02) >>> 1 = 1 then
        match rest with
        | byte3 :: byte4 :: rest =>
            let first := (((byte2 &&& 0x01) <<< 9) ||| (byte3 <<< 1)) ||| ((byte4 &&& 0x80) >>> 7)
            if (byte4 &&& 0x40) >>> 6 = 1 then
              (readNacks byte4 rest).map fun nacks =>
                (h.readStatus byte1 byte2 (first :: nacks.1), nacks.2)
            else some (h.readStatus byte1 byte2 [first], rest)
        | _ => none
      else some (h.readStatus byte1 byte2 [], rest)
  | [] => none

def deserialize (h : LteRlcAmHeader) (bytes : List ℕ) : Option (LteRlcAmHeader × List ℕ) :=
  match bytes with
  | byte1 :: rest =>
      let h := { h with headerLength := 1, dataControlBit := (byte1 &&& 0x80) >>> 7 }
      if h.dataControlBit = dataPdu then h.deserializeData bytes.length byte1 rest
      else h.deserializeControl byte1 rest
  | [] => none

end LteRlcAmHeader
end NetGymSim.Lte

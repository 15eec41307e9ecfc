import NetGymSim.Lte.SduSegmentation

/-!
# Reassembling SDUs

RLC UM and RLC AM reassemble SDUs with the same code. The length indicators cut the data of a
PDU into pieces; the framing info says whether the first piece begins an SDU and the last piece
ends one. What is known of an SDU that is not complete is kept for the next PDU. The two differ
in one place: a PDU whose first piece continues an SDU, received in sequence when none is kept,
is an error for RLC AM and leaves its pieces in the list, while RLC UM discards the first piece.
-/

namespace NetGymSim.Lte
open NetGymSim.Lib

/-- `WAITING_S0_FULL` and `WAITING_SI_SF`. -/
inductive ReassemblingState
  | waitingS0Full
  | waitingSiSf
  deriving DecidableEq

/-- `delivered` is what `m_rlcSapUser->ReceivePdcpPdu` was called with, `keepS0` is null when
nothing is kept. -/
structure Reassembler where
  sdusBuffer : List (List ℕ) := []
  keepS0 : Option (List ℕ) := none
  reassemblingState : ReassemblingState := .waitingS0Full
  expectedSeqNumber : ℕ := 0
  delivered : List (List ℕ) := []
  deriving DecidableEq

def cutPieces : List ℕ → List ℕ → List ℕ → List (List ℕ)
  | extensionBit :: extensionBits, lengthIndicators, packet =>
      if extensionBit = 0 then [packet]
      else
        let lengthIndicator := lengthIndicators.headD 0
        packet.take lengthIndicator ::
          cutPieces extensionBits lengthIndicators.tail (packet.drop lengthIndicator)
  | [], _, _ => []

namespace Reassembler

def deliver (r : Reassembler) (sdus : List (List ℕ)) : Reassembler :=
  { r with delivered := r.delivered ++ sdus }

def deliverAll (r : Reassembler) : Reassembler :=
  { r.deliver r.sdusBuffer with sdusBuffer := [], reassemblingState := .waitingS0Full }

def deliverKeepLast (r : Reassembler) : Reassembler :=
  { r.deliver r.sdusBuffer.dropLast with
    sdusBuffer := []
    keepS0 := r.sdusBuffer.getLast?
    reassemblingState := .waitingSiSf }

def discardFront (r : Reassembler) : Reassembler := { r with sdusBuffer := r.sdusBuffer.tail }

def discardS0 (r : Reassembler) : Reassembler := { r with keepS0 := none }

/-- `m_keepS0->AddAtEnd (m_sdusBuffer.front ())`. -/
def keepFront (r : Reassembler) : Reassembler :=
  { r with
    keepS0 := r.keepS0.map (· ++ r.sdusBuffer.headD [])
    sdusBuffer := r.sdusBuffer.tail }

def deliverKept (r : Reassembler) : Reassembler :=
  let r := r.keepFront
  r.deliver r.keepS0.toList

/-- A piece that continues an SDU that is not kept, with the last piece begun but not ended. -/
def discardKeepLast (r : Reassembler) : Reassembler :=
  if r.sdusBuffer.length = 1 then { r.discardFront with reassemblingState := .waitingS0Full }
  else r.discardFront.deliverKeepLast

/-- The pieces of a PDU in sequence. `discards` is set for RLC UM. -/
def inSequence (discards : Bool) (framingInfo : ℕ) (r : Reassembler) : Reassembler :=
  match r.reassemblingState with
  | .waitingS0Full =>
      if framingInfo = firstByte ||| lastByte then r.deliverAll
      else if framingInfo = firstByte ||| noLastByte then r.deliverKeepLast
      else if discards then
        if framingInfo = noFirstByte ||| lastByte then r.discardFront.deliverAll
        else if framingInfo = noFirstByte ||| noLastByte then r.discardKeepLast
        else r
      else r
  | .waitingSiSf =>
      if framingInfo = noFirstByte ||| lastByte then r.deliverKept.deliverAll
      else if framingInfo = noFirstByte ||| noLastByte then
        if r.sdusBuffer.length = 1 then r.keepFront else r.deliverKept.deliverKeepLast
      else r

/-- The pieces of a PDU that is not the expected one. -/
def afterLoss (framingInfo : ℕ) (r : Reassembler) : Reassembler :=
  let kept := match r.reassemblingState with
    | .waitingS0Full => r
    | .waitingSiSf => r.discardS0
  if framingInfo = firstByte ||| lastByte then kept.deliverAll
  else if framingInfo = firstByte ||| noLastByte then kept.deliverKeepLast
  else if framingInfo = noFirstByte ||| lastByte then kept.discardFront.deliverAll
  else if framingInfo = noFirstByte ||| noLastByte then kept.discardKeepLast
  else r

/-- `ReassembleAndDeliver`, with the fields of the header that was removed from the packet. -/
def reassemble (discards : Bool) (framingInfo currSeqNumber : ℕ)
    (extensionBits lengthIndicators packet : List ℕ) (r : Reassembler) : Reassembler :=
  let expectedSnLost := currSeqNumber ≠ r.expectedSeqNumber
  let r := { r with
    expectedSeqNumber := (currSeqNumber + 1) % 1024
    sdusBuffer := r.sdusBuffer ++ cutPieces extensionBits lengthIndicators packet }
  if expectedSnLost then r.afterLoss framingInfo else r.inSequence discards framingInfo

/-! ### PDUs that follow in sequence -/

section InSequence
variable {discards : Bool} {r : Reassembler}

theorem inSequence_full (h : r.reassemblingState = .waitingS0Full) :
    r.inSequence discards (firstByte ||| lastByte) = r.deliverAll := by
  unfold inSequence
  rw [h]
  rfl

theorem inSequence_begun (h : r.reassemblingState = .waitingS0Full) :
    r.inSequence discards (firstByte ||| noLastByte) = r.deliverKeepLast := by
  unfold inSequence
  rw [h]
  rfl

theorem inSequence_ended (h : r.reassemblingState = .waitingSiSf) :
    r.inSequence discards (noFirstByte ||| lastByte) = r.deliverKept.deliverAll := by
  unfold inSequence
  rw [h]
  rfl

theorem inSequence_ended_begun (h : r.reassemblingState = .waitingSiSf) :
    r.inSequence discards (noFirstByte ||| noLastByte) =
      if r.sdusBuffer.length = 1 then r.keepFront else r.deliverKept.deliverKeepLast := by
  unfold inSequence
  rw [h]
  rfl

theorem reassemble_expected {framingInfo sn : ℕ} {extensionBits lengthIndicators packet : List ℕ}
    (hsn : r.expectedSeqNumber = sn) (hempty : r.sdusBuffer = []) :
    r.reassemble discards framingInfo sn extensionBits lengthIndicators packet =
      inSequence discards framingInfo { r with
        expectedSeqNumber := (sn + 1) % 1024
        sdusBuffer := cutPieces extensionBits lengthIndicators packet } := by
  unfold reassemble
  dsimp only
  rw [hsn, hempty, List.nil_append]
  exact if_neg fun h => h rfl

end InSequence

end Reassembler
end NetGymSim.Lte

import NetGymSim.Lte.RlcHeader
import NetGymSim.Lte.Reassembly
import NetGymSim.Lte.SequenceNumber10
import NetGymSim.Lib.Machine
import Mathlib.Logic.Function.Basic

/-!
# `LteRlcUm`

A packet is the list of its bytes. The reception buffer is a map from sequence numbers, which is
walked in the order of its keys. Of a timer it matters whether it is running; its expiry is an
event. Assertions do not change the state; where an access would fail the state is left as it is.
Reports to the MAC and the times that packets wait are left out.
-/

namespace NetGymSim.Lte
open NetGymSim.Lib

/-- `MaxTxBufferSize`. -/
structure RlcUmConfig where
  maxTxBufferSize : ℕ := 10 * 1024

def umWindowSize : ℕ := 512

structure LteRlcUm where
  config : RlcUmConfig
  txBuffer : List TxPdu := []
  txBufferSize : ℕ := 0
  sequenceNumber : SequenceNumber10 := .ofValue 0
  rxBuffer : ℕ → Option (List ℕ) := fun _ => none
  vrUr : SequenceNumber10 := .ofValue 0
  vrUx : SequenceNumber10 := .ofValue 0
  vrUh : SequenceNumber10 := .ofValue 0
  reorderingTimer : Bool := false
  rbsTimer : Bool := false
  reassembler : Reassembler := {}

namespace LteRlcUm

/-! ### Transmission -/

def HasRoom (s : LteRlcUm) (p : List ℕ) : Prop :=
  s.txBufferSize + p.length ≤ s.config.maxTxBufferSize

instance (s : LteRlcUm) (p : List ℕ) : Decidable (s.HasRoom p) :=
  inferInstanceAs (Decidable (_ ≤ _))

/-- The head of line delay that is looked at for discarding changes nothing but a trace. -/
def doTransmitPdcpPdu (s : LteRlcUm) (p : List ℕ) : LteRlcUm :=
  let s :=
    if s.HasRoom p then
      { s with
        txBuffer := s.txBuffer ++ [⟨p, .fullSdu⟩]
        txBufferSize := s.txBufferSize + p.length }
    else s
  { s with rbsTimer := false }

def takeDataField (s : LteRlcUm) (bytes : ℕ) (first : TxPdu) (behind : List TxPdu) :
    Filling LteRlcHeader :=
  fillDataField ({} : LteRlcHeader) [] (s.txBufferSize - first.pdu.length) first (bytes - 2) 1
    behind

def newHeader (f : Filling LteRlcHeader) (sequenceNumber : SequenceNumber10) : LteRlcHeader :=
  (f.header.setSequenceNumber sequenceNumber.value).setFramingInfo (framingInfo f.dataField)

def doNotifyTxOpportunity (s : LteRlcUm) (bytes : ℕ) : LteRlcUm × Option (List ℕ) :=
  if bytes ≤ 2 then (s, none)
  else match s.txBuffer with
    | [] => (s, none)
    | first :: behind =>
        let f := s.takeDataField bytes first behind
        ({ s with
          txBuffer := f.txBuffer
          txBufferSize := f.txBufferSize
          sequenceNumber := s.sequenceNumber.succ
          rbsTimer := if f.txBuffer ≠ [] then true else s.rbsTimer },
        some ((newHeader f s.sequenceNumber).serialize ++ dataOf f.dataField))

/-! ### Reception -/

def isInsideReorderingWindow (s : LteRlcUm) (seqNumber : SequenceNumber10) : Bool :=
  let vrUh := s.vrUh.setModulusBase (s.vrUh.sub umWindowSize)
  let seqNumber := seqNumber.setModulusBase (s.vrUh.sub umWindowSize)
  (vrUh.sub umWindowSize).le seqNumber ∧ seqNumber.lt vrUh

/-- The base that `IsInsideReorderingWindow` sets in the entity. -/
def setUhBase (s : LteRlcUm) : LteRlcUm :=
  { s with vrUh := s.vrUh.setModulusBase (s.vrUh.sub umWindowSize) }

def reassembleAndDeliver (s : LteRlcUm) (packet : List ℕ) : LteRlcUm :=
  match ({} : LteRlcHeader).deserialize packet with
  | none => s
  | some (header, data) =>
      { s with
        reassembler := s.reassembler.reassemble true header.framingInfo header.sequenceNumber
          header.extensionBits header.lengthIndicators data }

def deliver (s : LteRlcUm) (n : ℕ) (packet : List ℕ) : LteRlcUm :=
  let s := s.reassembleAndDeliver packet
  { s with rxBuffer := Function.update s.rxBuffer n none }

def reassembleKeys : List ℕ → LteRlcUm → LteRlcUm
  | [], s => s
  | n :: keys, s =>
      match s.rxBuffer n with
      | none => reassembleKeys keys s
      | some packet =>
          let inside := s.isInsideReorderingWindow (.ofValue n)
          let s := s.setUhBase
          if inside then s else reassembleKeys keys (s.deliver n packet)

def reassembleOutsideWindow (s : LteRlcUm) : LteRlcUm := reassembleKeys (List.range 1024) s

def deliverAt (s : LteRlcUm) (n : ℕ) : LteRlcUm :=
  match s.rxBuffer n with
  | some packet => s.deliver n packet
  | none => s

def reassembleSnInterval : ℕ → LteRlcUm → SequenceNumber10 → SequenceNumber10 → LteRlcUm
  | 0, s, _, _ => s
  | fuel + 1, s, reassembleSn, highSeqNumber =>
      if reassembleSn.lt highSeqNumber then
        reassembleSnInterval fuel (s.deliverAt reassembleSn.value) reassembleSn.succ highSeqNumber
      else s

def discarded (s : LteRlcUm) (seqNumber : SequenceNumber10) : Bool :=
  (s.vrUr.lt seqNumber ∧ seqNumber.lt s.vrUh ∧ (s.rxBuffer seqNumber.value).isSome) ∨
    ((s.vrUh.sub umWindowSize).le seqNumber ∧ seqNumber.lt s.vrUr)

def moveWindow (s : LteRlcUm) (seqNumber : SequenceNumber10) : LteRlcUm :=
  let inside := s.isInsideReorderingWindow seqNumber
  let s := s.setUhBase
  if inside then s
  else
    let s := { s with vrUh := seqNumber.add 1 }
    let s := s.reassembleOutsideWindow
    let frontInside := s.isInsideReorderingWindow s.vrUr
    let s := s.setUhBase
    if frontInside then s else { s with vrUr := s.vrUh.sub umWindowSize }

/-- The loop that looks for the first missing key. The key is a plain number of 16 bits. -/
def firstMissing (s : LteRlcUm) : ℕ → ℕ → ℕ
  | 0, n => n
  | fuel + 1, n => if (s.rxBuffer n).isSome then firstMissing s fuel (n + 1) else n

def deliverFront (s : LteRlcUm) : LteRlcUm :=
  if (s.rxBuffer s.vrUr.value).isSome then
    let newVrUr := s.firstMissing 1024 (s.vrUr.value + 1)
    let oldVrUr := s.vrUr
    let s := { s with vrUr := s.vrUr.assign newVrUr }
    reassembleSnInterval 1024 s oldVrUr s.vrUr
  else s

def setBases (s : LteRlcUm) : LteRlcUm :=
  let base := s.vrUh.sub umWindowSize
  { s with
    vrUr := s.vrUr.setModulusBase base
    vrUx := s.vrUx.setModulusBase base
    vrUh := s.vrUh.setModulusBase base }

def stopReordering (s : LteRlcUm) : LteRlcUm :=
  if s.reorderingTimer then
    if s.vrUx.le s.vrUr ∨
        (¬ s.isInsideReorderingWindow s.vrUx ∧ s.vrUx.value ≠ s.vrUh.value) then
      { s with reorderingTimer := false }
    else s
  else s

def startReordering (s : LteRlcUm) : LteRlcUm :=
  if ¬ s.reorderingTimer then
    if s.vrUh.gt s.vrUr then { s with reorderingTimer := true, vrUx := s.vrUh } else s
  else s

def setReceiveBases (s : LteRlcUm) : LteRlcUm :=
  let base := s.vrUh.sub umWindowSize
  { s with vrUr := s.vrUr.setModulusBase base, vrUh := s.vrUh.setModulusBase base }

def placePdu (s : LteRlcUm) (seqNumber : SequenceNumber10) (packet : List ℕ) : LteRlcUm :=
  let s := { s with rxBuffer := Function.update s.rxBuffer seqNumber.value (some packet) }
  (((s.moveWindow seqNumber).deliverFront.setBases).stopReordering).startReordering

def doReceivePdu (s : LteRlcUm) (packet : List ℕ) : LteRlcUm :=
  match ({} : LteRlcHeader).deserialize packet with
  | none => s
  | some (header, _) =>
      let seqNumber := (SequenceNumber10.ofValue header.sequenceNumber).setModulusBase
        (s.vrUh.sub umWindowSize)
      let s := s.setReceiveBases
      if s.discarded seqNumber then s else s.placePdu seqNumber packet

/-! ### Timers -/

def skipReceived (s : LteRlcUm) : ℕ → SequenceNumber10 → SequenceNumber10
  | 0, sn => sn
  | fuel + 1, sn =>
      if (s.rxBuffer sn.value).isSome then skipReceived s fuel sn.succ else sn

def expireReorderingTimer (s : LteRlcUm) : LteRlcUm :=
  let newVrUr := s.skipReceived 1024 s.vrUx
  let oldVrUr := s.vrUr
  let s := { s with reorderingTimer := false, vrUr := newVrUr }
  let s := reassembleSnInterval 1024 s oldVrUr s.vrUr
  if s.vrUh.gt s.vrUr then { s with reorderingTimer := true, vrUx := s.vrUh } else s

def expireRbsTimer (s : LteRlcUm) : LteRlcUm :=
  if s.txBuffer ≠ [] then s else { s with rbsTimer := false }

/-! ### Runs -/

inductive Event
  | transmitPdcpPdu (p : List ℕ)
  | notifyTxOpportunity (bytes : ℕ)
  | receivePdu (packet : List ℕ)
  | expireReorderingTimer
  | expireRbsTimer
  deriving DecidableEq

def next (s : LteRlcUm) : Event → LteRlcUm
  | .transmitPdcpPdu p => s.doTransmitPdcpPdu p
  | .notifyTxOpportunity bytes => (s.doNotifyTxOpportunity bytes).1
  | .receivePdu packet => s.doReceivePdu packet
  | .expireReorderingTimer => s.expireReorderingTimer
  | .expireRbsTimer => s.expireRbsTimer

/-- PDCP puts its header in front of what it sends, so that no SDU is empty. The grants of the
MAC are of 16 bits. A timer only expires while it runs. -/
def enabled (s : LteRlcUm) : Event → Prop
  | .transmitPdcpPdu p => p ≠ []
  | .notifyTxOpportunity bytes => bytes < 65536
  | .receivePdu _ => True
  | .expireReorderingTimer => s.reorderingTimer
  | .expireRbsTimer => s.rbsTimer

def machine : Machine LteRlcUm Event := ⟨enabled, next⟩

instance : (s : LteRlcUm) → (e : Event) → Decidable (machine.enabled s e)
  | _, .transmitPdcpPdu p => inferInstanceAs (Decidable (p ≠ []))
  | _, .notifyTxOpportunity bytes => inferInstanceAs (Decidable (bytes < 65536))
  | _, .receivePdu _ => inferInstanceAs (Decidable True)
  | s, .expireReorderingTimer => inferInstanceAs (Decidable (s.reorderingTimer = true))
  | s, .expireRbsTimer => inferInstanceAs (Decidable (s.rbsTimer = true))

def initial (config : RlcUmConfig) : LteRlcUm := { config := config }

end LteRlcUm
end NetGymSim.Lte

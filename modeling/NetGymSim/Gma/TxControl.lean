import NetGymSim.Gma.LinkState
import NetGymSim.Lib.SerialNumber

/-!
# Control messages

The header of a control message with the numbers of `CsnDiff`, which compares control
sequence numbers (`uint16_t`, they wrap).
-/

namespace NetGymSim.Gma
open NetGymSim.Lib

/-- The message types 1, 5, 6, 7, 8, 9 and 10. -/
inductive CtrlType
  | probe | tsu | ack | tsa | qosTestingRequest | qosTestingStartNotify | qosViolation
  deriving DecidableEq, Repr

def bestEffortFlowId : ℕ := 0
def qosFlowId : ℕ := 4

structure MxControlHeader where
  type : CtrlType
  connectionId : Cid := 0
  sequenceNumber : ℕ := 0
  timeStamp : ℕ := 0
  linkStatus : ℕ := 0
  probeFlag : ℕ := 0
  rCid : Cid := 0
  flowId : ℕ := 0
  reverseFlag : ℕ := 0
  kVector : List ℕ := []
  l : ℕ := 0
  owdVector : List ℕ := []
  queueingDelayVector : List ℕ := []
  startSn : ℕ := 0
  delay : ℕ := 0
  trafficDirection : ℕ := 0
  testDuration : ℕ := 0
  channelId : ℕ := 255
  deriving DecidableEq, Repr

namespace MxControlHeader

def setSequenceNumber (h : MxControlHeader) (csn : ℕ) : MxControlHeader :=
  { h with sequenceNumber := csn }

/-- A vector that was not measured is sent as 255 for every link. -/
def setTsuKandMeasureVectors (h : MxControlHeader) (k owd queueingDelay : List ℕ) :
    MxControlHeader :=
  { h with
    kVector := k
    owdVector := if owd = [] then List.replicate k.length 255 else owd
    queueingDelayVector :=
      if queueingDelay = [] then List.replicate k.length 255 else queueingDelay }

end MxControlHeader

def csnDiff (x1 x2 : ℤ) : ℤ := wrapDiff 32768 x1 x2

theorem csnDiff_residues {i j : ℤ} (hlo : -32768 < i - j) (hhi : i - j < 32768) :
    csnDiff (i % 65536) (j % 65536) = i - j :=
  wrapDiff_residues (by decide) hlo hhi

end NetGymSim.Gma

/-!
## The sender's traffic splitting

`RcvCtrlMsg` turns the vector of shares of a TSU into a schedule of links, the order of which
comes from tables of reversed indices, and `GetNextCidFromTsu` goes round that schedule.
`debug` says whether `NS_ASSERT` is compiled in. An `at` out of range, a fatal error and a
failed assertion end the program.
-/

namespace NetGymSim.Gma

def reverseBitsIndex4 : List ℕ := [0, 2, 1, 3]

def reverseBitsIndex8 : List ℕ := [0, 4, 2, 6, 1, 5, 3, 7]

def reverseBitsIndex16 : List ℕ := [0, 8, 4, 12, 2, 10, 6, 14, 1, 9, 5, 13, 3, 11, 7, 15]

def reverseBitsIndex32 : List ℕ := [
  0, 16, 8, 24, 4, 20, 12, 28, 2, 18, 10, 26, 6, 22, 14, 30,
  1, 17, 9, 25, 5, 21, 13, 29, 3, 19, 11, 27, 7, 23, 15, 31]

def reverseBitsIndex64 : List ℕ := [
  0, 32, 16, 48, 8, 40, 24, 56, 4, 36, 20, 52, 12, 44, 28, 60,
  2, 34, 18, 50, 10, 42, 26, 58, 6, 38, 22, 54, 14, 46, 30, 62,
  1, 33, 17, 49, 9, 41, 25, 57, 5, 37, 21, 53, 13, 45, 29, 61,
  3, 35, 19, 51, 11, 43, 27, 59, 7, 39, 23, 55, 15, 47, 31, 63]

def reverseBitsIndex128 : List ℕ := [
  0, 64, 32, 96, 16, 80, 48, 112, 8, 72, 40, 104, 24, 88, 56, 120,
  4, 68, 36, 100, 20, 84, 52, 116, 12, 76, 44, 108, 28, 92, 60, 124,
  2, 66, 34, 98, 18, 82, 50, 114, 10, 74, 42, 106, 26, 90, 58, 122,
  6, 70, 38, 102, 22, 86, 54, 118, 14, 78, 46, 110, 30, 94, 62, 126,
  1, 65, 33, 97, 17, 81, 49, 113, 9, 73, 41, 105, 25, 89, 57, 121,
  5, 69, 37, 101, 21, 85, 53, 117, 13, 77, 45, 109, 29, 93, 61, 125,
  3, 67, 35, 99, 19, 83, 51, 115, 11, 75, 43, 107, 27, 91, 59, 123,
  7, 71, 39, 103, 23, 87, 55, 119, 15, 79, 47, 111, 31, 95, 63, 127]

def reverseBitsIndex : ℕ → Option (List ℕ)
  | 4 => some reverseBitsIndex4
  | 8 => some reverseBitsIndex8
  | 16 => some reverseBitsIndex16
  | 32 => some reverseBitsIndex32
  | 64 => some reverseBitsIndex64
  | 128 => some reverseBitsIndex128
  | _ => none

inductive TxFault
  | notTsu | unsupportedBurst | outOfRange | duplicateInSplitMode | twoPrimaryLinks
  | otherSize | sumMismatch
  deriving DecidableEq, Repr

structure GmaTxControl where
  cidVector : List Cid := []
  cidDupVector : List Cid := []
  paramL : ℕ := 0
  splittingIndex : ℕ := 0
  deriving DecidableEq, Repr

namespace GmaTxControl

/-- `cidList.at(link)` stands inside the inner loop and is not read for a share of zero. -/
def inorderCidVector (cidList : List Cid) (kVector : List ℕ) : Except TxFault (List Cid) :=
  if ∀ p ∈ kVector.zipIdx, p.1 ≠ 0 → p.2 < cidList.length then
    .ok (kVector.zipIdx.flatMap fun p => List.replicate p.1 (cidList.getD p.2 0))
  else .error .outOfRange

def reorder (table : List ℕ) (inorder : List Cid) : Except TxFault (List Cid) :=
  if ∀ i ∈ table.take inorder.length, i < inorder.length then
    .ok ((table.take inorder.length).map fun i => inorder.getD i 0)
  else .error .outOfRange

def splitMode (debug : Bool) (l : ℕ) (inorder : List Cid) (t : GmaTxControl) :
    Except TxFault GmaTxControl :=
  if inorder.length ≠ l then .error .duplicateInSplitMode
  else
    match reverseBitsIndex l with
    | none =>
        if inorder ≠ [] then .error .otherSize
        else .ok { t with cidVector := [], paramL := l, splittingIndex := 0 }
    | some table =>
        match reorder table inorder with
        | .error e => .error e
        | .ok cidVector =>
            if debug ∧ cidVector.length ≠ l then .error .sumMismatch
            else .ok { t with cidVector, paramL := l, splittingIndex := 0 }

/-- One link of the new message: the first becomes the primary link unless there is one, the
others are duplicates. -/
def steerLink (v : List Cid × List Cid) (cid : Cid) : List Cid × List Cid :=
  match v.1 with
  | [] => ([cid], v.2)
  | primary :: _ => if cid ≠ primary then (v.1, v.2 ++ [cid]) else v

def steerMode (inorder : List Cid) (t : GmaTxControl) : Except TxFault GmaTxControl :=
  let steer (kept : List Cid) : GmaTxControl :=
    let v := inorder.foldl steerLink (kept, [])
    { cidVector := v.1, cidDupVector := v.2, paramL := 1, splittingIndex := 0 }
  match t.cidVector with
  | [] => .ok (steer [])
  | [cid] => .ok (steer (if cid ∈ inorder then [cid] else []))
  | _ => .error .twoPrimaryLinks

/-- The assertion on the burst size, as it is written. -/
def assertedBursts : List ℕ := [1, 4, 8, 16, 32, 128]

def rcvCtrlMsg (debug : Bool) (cidList : List Cid) (mxHeader : MxControlHeader)
    (t : GmaTxControl) : Except TxFault GmaTxControl :=
  if mxHeader.type ≠ .tsu then .error .notTsu
  else if debug ∧ mxHeader.l ∉ assertedBursts then .error .unsupportedBurst
  else
    match inorderCidVector cidList mxHeader.kVector with
    | .error e => .error e
    | .ok inorder =>
        if mxHeader.l ≠ 1 then t.splitMode debug mxHeader.l inorder else t.steerMode inorder

def getNextCidFromTsu (t : GmaTxControl) : Except TxFault (Cid × GmaTxControl) :=
  if t.cidVector = [] then .ok (uint8Max, t)
  else
    match t.cidVector[t.splittingIndex]? with
    | none => .error .outOfRange
    | some connectionId =>
        let next := (t.splittingIndex + 1) % 256
        .ok (connectionId, { t with splittingIndex := if next ≥ t.paramL then 0 else next })

def rxSideAlgorithm (s : LinkState) (t : GmaTxControl) : Except TxFault (Cid × GmaTxControl) :=
  if t.cidVector = [] then .ok (s.defaultLinkCid, t)
  else
    match t.getNextCidFromTsu with
    | .error e => .error e
    | .ok (connectionId, t') =>
        .ok (if s.isLinkUp connectionId then connectionId else s.defaultLinkCid, t')

/-- A number of calls of `GetNextCidFromTsu` and what they return. -/
def transmit : ℕ → GmaTxControl → Except TxFault (List Cid × GmaTxControl)
  | 0, t => .ok ([], t)
  | n + 1, t =>
      match t.getNextCidFromTsu with
      | .error e => .error e
      | .ok (cid, t') =>
          match transmit n t' with
          | .error e => .error e
          | .ok (cids, t'') => .ok (cid :: cids, t'')

end GmaTxControl
end NetGymSim.Gma

import NetGymSim.Network.SequenceNumber

/-!
# The TCP receive buffer

`m_data` is the list of its entries in the order of the map, a packet being the list of
its bytes. The loops over the map are recursions over that list, with the variables they
update as arguments. Packet tags, traces and logging are left out.
-/

namespace NetGymSim.Internet
open Lib Network

structure TcpRxBuffer (α : Type*) where
  nextRxSeq : ℕ
  gotFin : Bool
  finSeq : ℕ
  size : ℕ
  maxBuffer : ℕ
  availBytes : ℕ
  data : List (ℕ × List α)
  sackList : List (ℕ × ℕ)
deriving DecidableEq

namespace TcpRxBuffer
variable {α : Type*}

def create (n maxBuffer : ℕ) : TcpRxBuffer α :=
  { nextRxSeq := n, gotFin := false, finSeq := 0, size := 0, maxBuffer := maxBuffer,
    availBytes := 0, data := [], sackList := [] }

def setFinSequence (b : TcpRxBuffer α) (s : ℕ) : TcpRxBuffer α :=
  { b with
    gotFin := true
    finSeq := s
    nextRxSeq := if b.nextRxSeq = s then seqAdd b.nextRxSeq 1 else b.nextRxSeq }

def insertData (key : ℕ) (p : List α) : List (ℕ × List α) → List (ℕ × List α)
  | [] => [(key, p)]
  | (seq, q) :: rest =>
    if seqLt key seq then (key, p) :: (seq, q) :: rest
    else if seqLt seq key then (seq, q) :: insertData key p rest
    else (seq, p) :: rest

/-- The loop that removes overlapped bytes: the remaining map, `headSeq`, `tailSeq`, `m_size`. -/
def trimOverlap : List (ℕ × List α) → ℕ → ℕ → ℕ → List (ℕ × List α) × ℕ × ℕ × ℕ
  | [], headSeq, tailSeq, size => ([], headSeq, tailSeq, size)
  | (seq, p) :: rest, headSeq, tailSeq, size =>
    if seqLe seq tailSeq then
      let lastByteSeq := seqAdd seq p.length
      if seqGt lastByteSeq headSeq then
        if seqGt seq headSeq ∧ seqLt lastByteSeq tailSeq then
          trimOverlap rest headSeq tailSeq (sub32 size p.length)
        else
          let headSeq' := if seqLe seq headSeq then lastByteSeq else headSeq
          let tailSeq' := if seqGe lastByteSeq tailSeq then seq else tailSeq
          let r := trimOverlap rest headSeq' tailSeq' size
          ((seq, p) :: r.1, r.2)
      else
        let r := trimOverlap rest headSeq tailSeq size
        ((seq, p) :: r.1, r.2)
    else ((seq, p) :: rest, headSeq, tailSeq, size)

def mergedBlock (begin current : ℕ × ℕ) : Option (ℕ × ℕ) :=
  if begin.1 = current.2 then some (current.1, begin.2)
  else if begin.2 = current.1 then some (begin.1, current.2)
  else none

/-- The scan of `UpdateSackList` after `begin`: a merge restarts it from the merged block. -/
def mergeSackBlocks : ℕ → ℕ × ℕ → List (ℕ × ℕ) → List (ℕ × ℕ)
  | 0, begin, blocks => begin :: blocks
  | fuel + 1, begin, blocks =>
    match blocks.find? fun current => (mergedBlock begin current).isSome with
    | none => begin :: blocks
    | some current =>
      mergeSackBlocks fuel ((mergedBlock begin current).getD begin)
        (blocks.eraseP fun block => (mergedBlock begin block).isSome)

def updateSackList (sackList : List (ℕ × ℕ)) (head tail : ℕ) : List (ℕ × ℕ) :=
  let merged := mergeSackBlocks sackList.length (head, tail) sackList
  if 4 < merged.length then merged.dropLast else merged

def clearSackList (sackList : List (ℕ × ℕ)) (seq : ℕ) : List (ℕ × ℕ) :=
  sackList.filter fun block => ¬ seqLe block.2 seq

/-- The loop over the map that moves `m_nextRxSeq`, `m_availBytes` and the SACK list on. -/
def advance : List (ℕ × List α) → ℕ → ℕ → List (ℕ × ℕ) → ℕ × ℕ × List (ℕ × ℕ)
  | [], nextRxSeq, availBytes, sackList => (nextRxSeq, availBytes, sackList)
  | (seq, p) :: rest, nextRxSeq, availBytes, sackList =>
    if seqLt seq nextRxSeq then advance rest nextRxSeq availBytes sackList
    else if seqGt seq nextRxSeq then (nextRxSeq, availBytes, sackList)
    else
      let nextRxSeq' := seqAdd seq p.length
      advance rest nextRxSeq' (add32 availBytes p.length) (clearSackList sackList nextRxSeq')

def trimWindow (b : TcpRxBuffer α) (seq pktSize : ℕ) : ℕ × ℕ :=
  let headSeq := if seqLt seq b.nextRxSeq then b.nextRxSeq else seq
  let tailSeq := seqAdd seq pktSize
  match b.data with
  | [] => (headSeq, tailSeq)
  | (first, _) :: _ =>
    let maxSeq := seqAdd first b.maxBuffer
    let tailSeq' := if seqLt maxSeq tailSeq then maxSeq else tailSeq
    (if seqLt tailSeq' headSeq then tailSeq' else headSeq, tailSeq')

/-- The part of `Add` that buffers the bytes `p` from `headSeq` on and moves the counters. -/
def store (b : TcpRxBuffer α) (headSeq tailSeq : ℕ) (p : List α) : TcpRxBuffer α :=
  let data := insertData headSeq p b.data
  let sackList :=
    if seqGt headSeq b.nextRxSeq then updateSackList b.sackList headSeq tailSeq else b.sackList
  let r := advance data b.nextRxSeq b.availBytes sackList
  { b with
    data := data
    size := add32 b.size p.length
    availBytes := r.2.1
    sackList := r.2.2
    nextRxSeq := if b.gotFin ∧ r.1 = b.finSeq then seqAdd r.1 1 else r.1 }

/-- `Add`: the number of the first byte of the packet stands for its header. -/
def add (b : TcpRxBuffer α) (p : List α) (seq : ℕ) : TcpRxBuffer α × Bool :=
  let w := b.trimWindow seq p.length
  let r := trimOverlap b.data w.1 w.2 b.size
  let headSeq := r.2.1
  let tailSeq := r.2.2.1
  let b' := { b with data := r.1, size := r.2.2.2 }
  if seqGe headSeq tailSeq then (b', false)
  else
    let start := (seqSub headSeq seq % 4294967296).toNat
    let length := (seqSub tailSeq headSeq % 4294967296).toNat
    (b'.store headSeq tailSeq ((p.drop start).take length), true)

/-- The loop of `Extract`: the map, `m_size`, `m_availBytes` and the collected bytes. -/
def extractLoop : List (ℕ × List α) → ℕ → ℕ → ℕ → List α → List (ℕ × List α) × ℕ × ℕ × List α
  | [], _, size, availBytes, outPkt => ([], size, availBytes, outPkt)
  | (seq, p) :: rest, extractSize, size, availBytes, outPkt =>
    if extractSize = 0 then ((seq, p) :: rest, size, availBytes, outPkt)
    else if p.length ≤ extractSize then
      extractLoop rest (extractSize - p.length) (sub32 size p.length)
        (sub32 availBytes p.length) (outPkt ++ p)
    else
      ((insertData (seqAdd seq extractSize) (p.drop extractSize) ((seq, p) :: rest)).eraseP
          fun entry => entry.1 = seq,
        sub32 size extractSize, sub32 availBytes extractSize, outPkt ++ p.take extractSize)

/-- `Extract`: the bytes handed out, none where the source returns a null packet. -/
def extract (b : TcpRxBuffer α) (maxSize : ℕ) : TcpRxBuffer α × List α :=
  let r := extractLoop b.data (min maxSize b.availBytes) b.size b.availBytes []
  ({ b with data := r.1, size := r.2.1, availBytes := r.2.2.1 }, r.2.2.2)

end TcpRxBuffer
end NetGymSim.Internet

import NetGymSim.Network.SequenceNumber

/-!
# The TCP transmit buffer

The sent list and the application list hold items, a packet being the list of its bytes.
`node` tells the nodes of the lists apart, for the iterator that `m_highestSack` keeps.
A pointer to an item of a list is that item with what stands before and after it.
Operations that may end the program (an abort, a fatal error, a null pointer that is
followed) return an option. Send times, rate samples, callbacks and logging are left out.
-/

namespace NetGymSim.Internet
open Lib Network

structure TcpTxItem (α : Type*) where
  node : ℕ
  startSeq : ℕ
  packet : List α
  lost : Bool
  retrans : Bool
  sacked : Bool
deriving DecidableEq

structure TcpTxBuffer (α : Type*) where
  appList : List (TcpTxItem α)
  sentList : List (TcpTxItem α)
  maxBuffer : ℕ
  size : Counter
  sentSize : Counter
  firstByteSeq : ℕ
  /-- The node of the sent list, `none` for its end, with its sequence number. -/
  highestSack : Option ℕ × ℕ
  lostOut : Counter
  sackedOut : Counter
  retrans : Counter
  dupAckThresh : ℕ
  nodes : ℕ
deriving DecidableEq

namespace TcpTxItem
variable {α : Type*}

def size (item : TcpTxItem α) : ℕ := item.packet.length

/-- `SplitItems`: the first `size` bytes as a new item, and what is left. -/
def splitItems (t2 : TcpTxItem α) (size node : ℕ) : TcpTxItem α × TcpTxItem α :=
  ({ t2 with node := node, packet := t2.packet.take size },
    { t2 with startSeq := seqAdd t2.startSeq size, packet := t2.packet.drop size })

/-- `MergeItems`: the second item joins the first; the counter is `m_retrans`. -/
def mergeItems (t1 t2 : TcpTxItem α) (retrans : Counter) : TcpTxItem α × Counter :=
  let t1' := { t1 with packet := t1.packet ++ t2.packet }
  if t1.retrans ≠ t2.retrans then
    if t1.retrans then ({ t1' with retrans := false }, retrans.sub t1.size)
    else (t1', retrans.sub t2.size)
  else (t1', retrans)

end TcpTxItem

structure Found (α : Type*) where
  before : List (TcpTxItem α)
  item : TcpTxItem α
  after : List (TcpTxItem α)
  retrans : Counter
  nodes : ℕ

structure Scoreboard where
  lostOut : Counter
  sackedOut : Counter
  bytesSacked : ℕ
  highestSack : Option ℕ × ℕ
deriving DecidableEq

namespace TcpTxBuffer
variable {α : Type*}

def create (headSeq maxBuffer dupAckThresh : ℕ) : TcpTxBuffer α :=
  { appList := [], sentList := [], maxBuffer := maxBuffer, size := .exactly 0
    sentSize := .exactly 0, firstByteSeq := headSeq, highestSack := (none, 0)
    lostOut := .exactly 0, sackedOut := .exactly 0, retrans := .exactly 0
    dupAckThresh := dupAckThresh, nodes := 0 }

section Copy

def tailSequence (b : TcpTxBuffer α) : ℕ := seqAdd b.firstByteSeq b.size.value

def available (b : TcpTxBuffer α) : ℕ := sub32 b.maxBuffer b.size.value

def add (b : TcpTxBuffer α) (p : List α) : TcpTxBuffer α × Bool :=
  if p.length ≤ b.available then
    if 0 < p.length then
      ({ b with
          appList := b.appList ++ [⟨0, 0, p, false, false, false⟩]
          size := b.size.add p.length }, true)
    else (b, true)
  else (b, false)

def sizeFromSequence (b : TcpTxBuffer α) (seq : ℕ) : ℕ :=
  if seqGe b.tailSequence seq then (seqSub b.tailSequence seq % 4294967296).toNat else 0

/-- The second half of `GetPacketFromList`: `item` starts at `seq` and is fitted to `numBytes`.
The source walks the list again after a merge and meets the same item. -/
def fitPacket (numBytes seq nodes : ℕ) :
    TcpTxItem α → List (TcpTxItem α) → Counter → Option (Found α)
  | item, after, retrans =>
    if seqLe (seqAdd seq numBytes) (seqAdd seq item.size) then
      if numBytes = item.size then some ⟨[], item, after, retrans, nodes⟩
      else if numBytes < item.size then
        let t := item.splitItems numBytes nodes
        some ⟨[], t.1, t.2 :: after, retrans, nodes + 1⟩
      else none
    else
      match after with
      | [] => some ⟨[], item, [], retrans, nodes⟩
      | next :: rest =>
        let m := item.mergeItems next retrans
        fitPacket numBytes seq nodes m.1 rest m.2

def getPacketFromList (numBytes seq : ℕ) :
    List (TcpTxItem α) → ℕ → Counter → ℕ → Option (Found α)
  | [], _, _, _ => none
  | item :: rest, beginOfCurrentPacket, retrans, nodes =>
    if seqLt seq (seqAdd beginOfCurrentPacket item.size) then
      if seq = beginOfCurrentPacket then fitPacket numBytes seq nodes item rest retrans
      else if seqGt seq beginOfCurrentPacket then
        let t := item.splitItems (seqSub seq beginOfCurrentPacket % 4294967296).toNat nodes
        (fitPacket numBytes seq (nodes + 1) t.2 rest retrans).map fun f =>
          { f with before := t.1 :: f.before }
      else none
    else
      (getPacketFromList numBytes seq rest (seqAdd beginOfCurrentPacket item.size) retrans
        nodes).map fun f => { f with before := item :: f.before }

def getNewSegment (b : TcpTxBuffer α) (numBytes : ℕ) :
    Option (TcpTxBuffer α × TcpTxItem α) :=
  let startOfAppList := seqAdd b.firstByteSeq b.sentSize.value
  (getPacketFromList numBytes startOfAppList b.appList startOfAppList b.retrans b.nodes).map
    fun f =>
      let item := { f.item with startSeq := startOfAppList, node := f.nodes }
      ({ b with
          appList := f.before ++ f.after
          sentList := b.sentList ++ [item]
          sentSize := b.sentSize.add item.size
          retrans := f.retrans
          nodes := f.nodes + 1 }, item)

def mergeLimit (seq : ℕ) : List (TcpTxItem α) → ℕ → ℕ
  | [], s => s
  | item :: rest, s =>
    if item.startSeq = seq then
      match rest with
      | [] => min s item.size
      | next :: _ =>
        if ¬ next.sacked ∧ item.lost = next.lost then min s (add32 item.size next.size)
        else min s item.size
    else mergeLimit seq rest s

def getTransmittedSegment (b : TcpTxBuffer α) (numBytes seq : ℕ) :
    Option (TcpTxBuffer α × TcpTxItem α) :=
  let s := mergeLimit seq b.sentList numBytes
  (getPacketFromList s seq b.sentList b.firstByteSeq b.retrans b.nodes).map fun f =>
    let item := { f.item with retrans := true }
    ({ b with
        sentList := f.before ++ item :: f.after
        retrans := if f.item.retrans then f.retrans else f.retrans.add f.item.size
        nodes := f.nodes }, item)

/-- `CopyFromSequence`, which calls itself at most once, for the sent part of a request. -/
def copyFrom : ℕ → TcpTxBuffer α → ℕ → ℕ → Option (TcpTxBuffer α × Option (TcpTxItem α))
  | 0, _, _, _ => none
  | calls + 1, b, numBytes, seq =>
    if seqGt b.firstByteSeq seq then none
    else
      let s := min numBytes (b.sizeFromSequence seq)
      let endOfSent := seqAdd b.firstByteSeq b.sentSize.value
      if s = 0 then some (b, none)
      else if seqGe endOfSent (seqAdd seq s) then
        (b.getTransmittedSegment s seq).map fun r => (r.1, some r.2)
      else if seqLe endOfSent seq then
        if endOfSent = seq then (b.getNewSegment s).map fun r => (r.1, some r.2)
        else none
      -- here the source compares plain words, without regard to the wrap
      else if seq < endOfSent ∧ endOfSent < add32 seq s then
        copyFrom calls b (sub32 endOfSent seq) seq
      -- no branch was taken: `outItem` is a null pointer and is followed
      else none

def copyFromSequence (b : TcpTxBuffer α) (numBytes seq : ℕ) :
    Option (TcpTxBuffer α × Option (TcpTxItem α)) := copyFrom 2 b numBytes seq

end Copy

section Flags

def removeFromCounts (b : TcpTxBuffer α) (item : TcpTxItem α) (size : ℕ) : TcpTxBuffer α :=
  { b with
    sackedOut := if item.sacked then b.sackedOut.sub size else b.sackedOut
    retrans := if item.retrans then b.retrans.sub size else b.retrans
    lostOut := if item.lost then b.lostOut.sub size else b.lostOut }

def sackFirst : List (TcpTxItem α) → List (TcpTxItem α) × Option (TcpTxItem α)
  | [] => ([], none)
  | item :: rest =>
    if item.sacked then
      let r := sackFirst rest
      (item :: r.1, r.2)
    else ({ item with sacked := true } :: rest, some item)

def addRenoSack (b : TcpTxBuffer α) : TcpTxBuffer α :=
  match b.sentList with
  | [] => b
  | head :: rest =>
    let r := sackFirst rest
    match r.2 with
    | none => b
    | some item =>
      { b with
        sentList := head :: r.1
        sackedOut := b.sackedOut.add item.size
        highestSack := (some item.node, item.startSeq) }

def markHeadAsLost (b : TcpTxBuffer α) : TcpTxBuffer α :=
  match b.sentList with
  | [] => b
  | head :: rest =>
    { b with
      sentList := { head with sacked := false, retrans := false, lost := true } :: rest
      sackedOut := if head.sacked then b.sackedOut.sub head.size else b.sackedOut
      retrans := if head.retrans then b.retrans.sub head.size else b.retrans
      lostOut := if head.lost then b.lostOut else b.lostOut.add head.size }

def deleteRetransmittedFlagFromHead (b : TcpTxBuffer α) : TcpTxBuffer α :=
  if b.sentSize.value = 0 then b
  else
    match b.sentList with
    | [] => b
    | head :: rest =>
      if head.retrans then
        { b with
          sentList := { head with retrans := false } :: rest
          retrans := b.retrans.sub head.size }
      else b

def resetRenoSack (b : TcpTxBuffer α) : TcpTxBuffer α :=
  { b with
    sackedOut := b.sackedOut.set 0
    sentList := b.sentList.map fun item => { item with sacked := false }
    highestSack := (none, 0) }

def loseItems (resetSack : Bool) : List (TcpTxItem α) → Counter → List (TcpTxItem α) × Counter
  | [], lostOut => ([], lostOut)
  | item :: rest, lostOut =>
    let t : TcpTxItem α × Counter :=
      if resetSack then ({ item with sacked := false, lost := true }, lostOut)
      else if item.lost then (item, lostOut.add item.size)
      else if ¬ item.sacked then ({ item with lost := true }, lostOut.add item.size)
      else (item, lostOut)
    let r := loseItems resetSack rest t.2
    ({ t.1 with retrans := false } :: r.1, r.2)

def setSentListLost (b : TcpTxBuffer α) (resetSack : Bool) : TcpTxBuffer α :=
  let r := loseItems resetSack b.sentList
    (b.lostOut.set (if resetSack then b.sentSize.value else 0))
  { b with
    sentList := r.1
    lostOut := r.2
    retrans := b.retrans.set 0
    sackedOut := if resetSack then b.sackedOut.set 0 else b.sackedOut
    highestSack := if resetSack then (none, 0) else b.highestSack }

def resetSentList (b : TcpTxBuffer α) : TcpTxBuffer α :=
  { b with
    appList := (b.sentList.map fun item =>
      { item with retrans := false, sacked := false, lost := false }) ++ b.appList
    sentList := []
    sentSize := b.sentSize.set 0
    lostOut := b.lostOut.set 0
    retrans := b.retrans.set 0
    sackedOut := b.sackedOut.set 0
    highestSack := (none, 0) }

def resetLastSegmentSent (b : TcpTxBuffer α) : TcpTxBuffer α :=
  match b.sentList.getLast? with
  | none => b
  | some item =>
    { b with
      sentList := b.sentList.dropLast
      sentSize := b.sentSize.sub item.size
      retrans := if item.retrans then b.retrans.sub item.size else b.retrans
      appList := item :: b.appList }

end Flags

section Discard

def moveToSent (b : TcpTxBuffer α) (offset : ℕ) : Option (TcpTxBuffer α) :=
  match b.sentList with
  | [] =>
    match b.copyFromSequence offset b.firstByteSeq with
    | some (b', some _) => some b'
    | _ => none
  | _ :: _ => some b

def discardItem (b : TcpTxBuffer α) (item : TcpTxItem α) (rest : List (TcpTxItem α)) :
    TcpTxBuffer α :=
  { b with
    sentList := rest
    size := b.size.sub item.size
    sentSize := b.sentSize.sub item.size
    firstByteSeq := seqAdd b.firstByteSeq item.size }.removeFromCounts item item.size

def discardPart (b : TcpTxBuffer α) (item : TcpTxItem α) (rest : List (TcpTxItem α))
    (offset : ℕ) : TcpTxBuffer α :=
  { b with
    sentList := { item with
      packet := item.packet.drop offset
      startSeq := seqAdd item.startSeq offset } :: rest
    size := b.size.sub offset
    sentSize := b.sentSize.sub offset
    firstByteSeq := seqAdd b.firstByteSeq offset }.removeFromCounts item offset

/-- The loop of `DiscardUpTo`; each turn works on the first item of the sent list. -/
def discardLoop : ℕ → TcpTxBuffer α → ℕ → Option (TcpTxBuffer α)
  | 0, _, _ => none
  | turns + 1, b, offset =>
    if 0 < b.size.value ∧ 0 < offset then
      match b.moveToSent offset with
      | none => none
      | some b =>
        match b.sentList with
        | [] => none
        | item :: rest =>
          if item.size ≤ offset then
            discardLoop turns (b.discardItem item rest) (offset - item.size)
          else some (b.discardPart item rest offset)
    else some b

def unsackHead (b : TcpTxBuffer α) : TcpTxBuffer α :=
  match b.sentList with
  | [] => b
  | head :: rest =>
    if head.sacked then
      (addRenoSack { b with
        sentList := { head with sacked := false } :: rest
        sackedOut := b.sackedOut.sub head.size }).markHeadAsLost
    else b

def followEmpty (b : TcpTxBuffer α) (seq : ℕ) : TcpTxBuffer α :=
  if b.size.value = 0 then { b with firstByteSeq := seq } else b

def dropHighestSack (b : TcpTxBuffer α) : TcpTxBuffer α :=
  if seqLe b.highestSack.2 b.firstByteSeq then { b with highestSack := (none, 0) } else b

def discardUpTo (b : TcpTxBuffer α) (seq : ℕ) : Option (TcpTxBuffer α) :=
  if seqGe b.firstByteSeq seq then some b
  else
    (discardLoop (b.sentList.length + 2) b
        (seqSub seq b.firstByteSeq % 4294967296).toNat).map fun b =>
      (b.followEmpty seq).unsackHead.dropHighestSack

end Discard

section Update

def sackBlock (block : ℕ × ℕ) :
    List (TcpTxItem α) → ℕ → Scoreboard → List (TcpTxItem α) × Scoreboard
  | [], _, sb => ([], sb)
  | item :: rest, beginOfCurrentPacket, sb =>
    let endOfCurrentPacket := seqAdd beginOfCurrentPacket item.size
    if seqGe beginOfCurrentPacket block.1 ∧ seqLe endOfCurrentPacket block.2 then
      let t : TcpTxItem α × Scoreboard :=
        if item.sacked then (item, sb)
        else
          ({ item with lost := false, sacked := true },
            { lostOut := if item.lost then sb.lostOut.sub item.size else sb.lostOut
              sackedOut := sb.sackedOut.add item.size
              bytesSacked := add32 sb.bytesSacked item.size
              highestSack :=
                if sb.highestSack.1 = none ∨ seqLe sb.highestSack.2 endOfCurrentPacket
                then (some item.node, beginOfCurrentPacket) else sb.highestSack })
      let r := sackBlock block rest endOfCurrentPacket t.2
      (t.1 :: r.1, r.2)
    else if seqGt endOfCurrentPacket block.2 then (item :: rest, sb)
    else
      let r := sackBlock block rest endOfCurrentPacket sb
      (item :: r.1, r.2)

/-- The loop of `Update` over the blocks; `false` says that it returned in the middle. -/
def sackBlocks (firstByteSeq sentSize : ℕ) :
    List (ℕ × ℕ) → List (TcpTxItem α) → Scoreboard → List (TcpTxItem α) × Scoreboard × Bool
  | [], sentList, sb => (sentList, sb, true)
  | block :: blocks, sentList, sb =>
    if seqLt (seqAdd firstByteSeq sentSize) block.1 then (sentList, sb, false)
    else
      let r := sackBlock block sentList firstByteSeq sb
      sackBlocks firstByteSeq sentSize blocks r.1 r.2

/-- The scan of `UpdateLostCount` from the highest sacked item down to the second one. -/
def loseBelow (dupAckThresh : ℕ) :
    List (TcpTxItem α) → ℕ → Counter → List (TcpTxItem α) × ℕ × Counter
  | [], sacked, lostOut => ([], sacked, lostOut)
  | item :: rest, sacked, lostOut =>
    let sacked' := if item.sacked then sacked + 1 else sacked
    let t : TcpTxItem α × Counter :=
      if dupAckThresh ≤ sacked' ∧ ¬ item.sacked ∧ ¬ item.lost then
        ({ item with lost := true }, lostOut.add item.size)
      else (item, lostOut)
    let r := loseBelow dupAckThresh rest sacked' t.2
    (t.1 :: r.1, r.2)

/-- The scan starts at the node of `m_highestSack`; where that node is gone nothing is scanned. -/
def updateLostCount (b : TcpTxBuffer α) : TcpTxBuffer α :=
  match b.sentList with
  | [] => b
  | head :: rest =>
    let n := match rest.findIdx? fun item => some item.node = b.highestSack.1 with
      | some i => i + 1
      | none => 0
    let r := loseBelow b.dupAckThresh (rest.take n).reverse 0 b.lostOut
    let head' :=
      if b.dupAckThresh ≤ r.2.1 ∧ ¬ head.lost then { head with lost := true } else head
    { b with
      sentList := head' :: (r.1.reverse ++ rest.drop n)
      lostOut :=
        if b.dupAckThresh ≤ r.2.1 ∧ ¬ head.lost then r.2.2.add head.size else r.2.2 }

def update (b : TcpTxBuffer α) (list : List (ℕ × ℕ)) : TcpTxBuffer α × ℕ :=
  let r := sackBlocks b.firstByteSeq b.sentSize.value list b.sentList
    ⟨b.lostOut, b.sackedOut, 0, b.highestSack⟩
  let b' := { b with
    sentList := r.1
    lostOut := r.2.1.lostOut
    sackedOut := r.2.1.sackedOut
    highestSack := r.2.1.highestSack }
  (if r.2.2 ∧ 0 < r.2.1.bytesSacked then b'.updateLostCount else b', r.2.1.bytesSacked)

end Update
end TcpTxBuffer
end NetGymSim.Internet

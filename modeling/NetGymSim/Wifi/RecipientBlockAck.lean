import NetGymSim.Lib.Circular
import NetGymSim.Lib.Machine

/-!
# `RecipientBlockAckAgreement`

The recipient keeps a scoreboard of received sequence numbers, a circular bit window
from `winStart`, and a reordering buffer with a window of its own from `winStartB`. The
buffer is a map whose order is the distance from `winStartB`; it is held here as the
list in that order. An MPDU beyond the end of a window moves it, and so does a BAR.
-/

namespace NetGymSim.Wifi
open NetGymSim.Lib

/-- The difference is taken in `int` and returned as `size_t`; the asserted range of the
arguments is not enforced. -/
def getDistance (seqNumber startingSeqNumber : ℕ) : ℕ :=
  (((seqNumber : ℤ) - startingSeqNumber + 4096).tmod 4096 % 18446744073709551616).toNat

theorem getDistance_eq {seqNumber startingSeqNumber : ℕ} (h : startingSeqNumber < 4096) :
    getDistance seqNumber startingSeqNumber = forward 4096 seqNumber startingSeqNumber := by
  unfold getDistance forward
  have h1 : (seqNumber : ℤ) - startingSeqNumber + 4096 =
      ((seqNumber + 4096 - startingSeqNumber : ℕ) : ℤ) := by omega
  rw [h1, Int.tmod_eq_emod_of_nonneg (by omega)]
  omega

/-! ### The scoreboard -/

structure BlockAckWindow where
  winStart : ℕ
  window : List Bool
  head : ℕ
  deriving DecidableEq

namespace BlockAckWindow

def init (winStart winSize : ℕ) : BlockAckWindow := ⟨winStart, List.replicate winSize false, 0⟩

def winSize (w : BlockAckWindow) : ℕ := w.window.length

def reset (w : BlockAckWindow) (winStart : ℕ) : BlockAckWindow := init winStart w.winSize

def get (w : BlockAckWindow) (distance : ℕ) : Bool :=
  w.window.getD ((w.head + distance) % w.winSize) false

def mark (w : BlockAckWindow) (distance : ℕ) : BlockAckWindow :=
  { w with window := w.window.set ((w.head + distance) % w.winSize) true }

def clearHead (w : BlockAckWindow) : BlockAckWindow :=
  { w with window := w.window.set w.head false, head := (w.head + 1) % w.winSize }

def advance (w : BlockAckWindow) (count : ℕ) : BlockAckWindow :=
  if count ≥ w.winSize then w.reset ((w.winStart + count) % 4096)
  else { clearHead^[count] w with winStart := (w.winStart + count) % 4096 }

def notifyReceivedMpdu (w : BlockAckWindow) (mpduSeqNumber : ℕ) : BlockAckWindow :=
  let distance := getDistance mpduSeqNumber w.winStart % 65536
  if distance < w.winSize then w.mark distance
  else if distance < 2048 then (w.advance (distance - w.winSize + 1)).mark (w.winSize - 1)
  else w

def notifyReceivedBar (w : BlockAckWindow) (startingSequenceNumber : ℕ) : BlockAckWindow :=
  let distance := getDistance startingSequenceNumber w.winStart % 65536
  if distance > 0 ∧ distance < w.winSize then w.advance distance
  else if distance > 0 ∧ distance < 2048 then w.reset startingSequenceNumber
  else w

end BlockAckWindow

/-! ### The reordering buffer -/

/-- `forwarded` is what `MacRxMiddle` has received. `base` counts `winStartB` without the
wrap; no operation reads it. -/
structure RecipientBlockAckAgreement (μ : Type*) where
  scoreboard : BlockAckWindow
  winStartB : ℕ
  winSizeB : ℕ
  bufferedMpdus : List (ℕ × μ) := []
  forwarded : List μ := []
  base : ℕ

namespace RecipientBlockAckAgreement
variable {μ : Type*}

def new (bufferSize startingSeq : ℕ) : RecipientBlockAckAgreement μ where
  scoreboard := .init startingSeq bufferSize
  winStartB := startingSeq
  winSizeB := bufferSize
  base := startingSeq

/-- The map compares keys by this number, taken in `int`. -/
def keyRank (winStartB seq : ℕ) : ℤ := ((seq : ℤ) - winStartB + 4096).tmod 4096

def insertMpdu (winStartB seq : ℕ) (mpdu : μ) : List (ℕ × μ) → List (ℕ × μ)
  | [] => [(seq, mpdu)]
  | x :: buffered =>
      if keyRank winStartB seq < keyRank winStartB x.1 then (seq, mpdu) :: x :: buffered
      else if keyRank winStartB x.1 < keyRank winStartB seq then
        x :: insertMpdu winStartB seq mpdu buffered
      else x :: buffered

def untilFirstLost (winStartB : ℕ) : List (ℕ × μ) → List μ × List (ℕ × μ) × ℕ
  | [] => ([], [], winStartB)
  | x :: buffered =>
      if x.1 = winStartB then
        let r := untilFirstLost ((winStartB + 1) % 4096) buffered
        (x.2 :: r.1, r.2)
      else ([], x :: buffered, winStartB)

def passBufferedMpdusUntilFirstLost (a : RecipientBlockAckAgreement μ) :
    RecipientBlockAckAgreement μ :=
  let r := untilFirstLost a.winStartB a.bufferedMpdus
  { a with
    forwarded := a.forwarded ++ r.1
    bufferedMpdus := r.2.1
    winStartB := r.2.2
    base := a.base + r.1.length }

def passBufferedMpdusWithSeqNumberLessThan (a : RecipientBlockAckAgreement μ)
    (newWinStartB : ℕ) : RecipientBlockAckAgreement μ :=
  let left := fun x : ℕ × μ => getDistance x.1 a.winStartB < getDistance newWinStartB a.winStartB
  { a with
    forwarded := a.forwarded ++ (a.bufferedMpdus.takeWhile left).map Prod.snd
    bufferedMpdus := a.bufferedMpdus.dropWhile left
    winStartB := newWinStartB
    base := a.base + getDistance newWinStartB a.winStartB }

def insert (a : RecipientBlockAckAgreement μ) (seq : ℕ) (mpdu : μ) :
    RecipientBlockAckAgreement μ :=
  { a with bufferedMpdus := insertMpdu a.winStartB seq mpdu a.bufferedMpdus }

/-- The argument of `PassBufferedMpdusWithSeqNumberLessThan` is a `uint16_t`: the difference
is not reduced modulo 4096. -/
def windowEndingAt (a : RecipientBlockAckAgreement μ) (seq : ℕ) : ℕ :=
  (((seq : ℤ) - a.winSizeB + 1) % 65536).toNat

def notifyReceivedMpdu (a : RecipientBlockAckAgreement μ) (mpduSeqNumber : ℕ) (mpdu : μ) :
    RecipientBlockAckAgreement μ :=
  let a := { a with scoreboard := a.scoreboard.notifyReceivedMpdu mpduSeqNumber }
  let distance := getDistance mpduSeqNumber a.winStartB % 65536
  if distance < a.winSizeB then (a.insert mpduSeqNumber mpdu).passBufferedMpdusUntilFirstLost
  else if distance < 2048 then
    ((a.insert mpduSeqNumber mpdu).passBufferedMpdusWithSeqNumberLessThan
      (a.windowEndingAt mpduSeqNumber)).passBufferedMpdusUntilFirstLost
  else a

def notifyReceivedBar (a : RecipientBlockAckAgreement μ) (startingSequenceNumber : ℕ) :
    RecipientBlockAckAgreement μ :=
  let a := { a with scoreboard := a.scoreboard.notifyReceivedBar startingSequenceNumber }
  let distance := getDistance startingSequenceNumber a.winStartB % 65536
  if distance > 0 ∧ distance < 2048 then
    (a.passBufferedMpdusWithSeqNumberLessThan
      startingSequenceNumber).passBufferedMpdusUntilFirstLost
  else a

end RecipientBlockAckAgreement

/-! ### Runs -/

/-- A received MPDU or BAR with its 12-bit sequence number. -/
inductive BaEvent
  | mpdu (seq : ℕ)
  | bar (startingSequenceNumber : ℕ)
  deriving DecidableEq

def BaEvent.seq : BaEvent → ℕ
  | .mpdu seq => seq
  | .bar seq => seq

/-- A recipient whose MPDUs carry their number without the wrap: `rx.base` plus the distance
from `WinStartB` at arrival. `scoreBase` and `received` are the same for the scoreboard. -/
structure Recipient where
  rx : RecipientBlockAckAgreement ℕ
  scoreBase : ℕ
  received : List ℕ := []

namespace Recipient

def new (bufferSize startingSeq : ℕ) : Recipient :=
  ⟨.new bufferSize startingSeq, startingSeq, []⟩

def arrival (s : Recipient) (seq : ℕ) : List ℕ :=
  let distance := getDistance seq s.rx.scoreboard.winStart
  if distance < s.rx.scoreboard.winSize ∨ distance < 2048 then [s.scoreBase + distance] else []

def receive (s : Recipient) (rx : RecipientBlockAckAgreement ℕ) (arrived : List ℕ) : Recipient where
  rx := rx
  scoreBase := s.scoreBase + getDistance rx.scoreboard.winStart s.rx.scoreboard.winStart
  received := s.received ++ arrived

def next (s : Recipient) : BaEvent → Recipient
  | .mpdu seq =>
      s.receive (s.rx.notifyReceivedMpdu seq (s.rx.base + getDistance seq s.rx.winStartB))
        (s.arrival seq)
  | .bar startingSequenceNumber => s.receive (s.rx.notifyReceivedBar startingSequenceNumber) []

def machine : Machine Recipient BaEvent := ⟨fun _ e => e.seq < 4096, next⟩

instance (s : Recipient) (e : BaEvent) : Decidable (machine.enabled s e) :=
  inferInstanceAs (Decidable (e.seq < 4096))

end Recipient
end NetGymSim.Wifi

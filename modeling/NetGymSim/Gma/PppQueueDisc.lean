import Mathlib.Data.List.Basic
import Mathlib.Tactic.Common
import Mathlib.Algebra.Order.Ring.Nat
import NetGymSim.Lib.Word

/-!
# Drop decisions of the Ppp queue disc

`DoDequeue` peeks the tags of the packets it looks at into one tag object. A peek at a packet
without a tag leaves the object as it is, so such a packet is judged by the last tag before it, or
by what the object held at first when there is none. The decision is the packet's own just when
these two make no difference to any packet the call gets to.
-/

namespace NetGymSim.Gma
open NetGymSim.Lib

inductive QueueSizeUnit
  | packets
  | bytes
deriving DecidableEq

/-- `GetCurrentSize () + item` for packets of these sizes in the queue, in 32 bits. -/
def QueueSizeUnit.sizeWith (unit : QueueSizeUnit) (sizes : List ℕ) (size : ℕ) : ℕ :=
  match unit with
  | .packets => add32 (sizes.length % 4294967296) 1
  | .bytes => add32 (sizes.sum % 4294967296) size

/-- `tag` is the priority in the `PppTag` of the packet, if it has one. -/
structure PppItem where
  size : ℕ
  tag : Option ℕ
deriving DecidableEq

inductive PppDecision
  | forward
  | drop
  | abort
deriving DecidableEq

/-- What a call of `DoDequeue` decided for the packets it looked at, the packet it returns, and the
queue it leaves behind. -/
structure PppDequeue where
  decisions : List PppDecision
  item : Option PppItem
  queue : List PppItem
deriving DecidableEq

/-- `PeekPacketTag` on a tag object that has the priority `tag`. -/
def PppItem.peekPacketTag (item : PppItem) (tag : ℕ) : ℕ := item.tag.getD tag

structure PppQueueDisc where
  unit : QueueSizeUnit
  maxSize : ℕ

namespace PppQueueDisc

def level : ℕ := 5

/-- The assertion fails for a priority above the level. -/
def getWeightedQueueSize (disc : PppQueueDisc) (ppp : ℕ) : Option ℕ :=
  if ppp ≤ level then some (disc.maxSize * (level - ppp) % 4294967296 / level) else none

/-- The decision for a packet outside `queue` when the tag object has this priority. -/
def decision (disc : PppQueueDisc) (queue : List PppItem) (item : PppItem) (ppp : ℕ) :
    PppDecision :=
  match disc.getWeightedQueueSize ppp with
  | none => .abort
  | some weighted =>
      if weighted < disc.unit.sizeWith (queue.map PppItem.size) item.size then .drop else .forward

/-- The constructor of the tag sets no priority: `tag` is what the object happens to hold. -/
def doEnqueue (disc : PppQueueDisc) (tag : ℕ) (queue : List PppItem) (item : PppItem) :
    List PppItem :=
  if disc.decision queue item (item.peekPacketTag tag) = .forward then queue ++ [item] else queue

/-- The loop of `DoDequeue`; `tag` is the priority the tag object has before the peek. -/
def dequeueLoop (disc : PppQueueDisc) : ℕ → List PppItem → PppDequeue
  | _, [] => ⟨[], none, []⟩
  | tag, item :: queue =>
      let tag := item.peekPacketTag tag
      match disc.decision queue item tag with
      | .drop =>
          let out := dequeueLoop disc tag queue
          { out with decisions := .drop :: out.decisions }
      | .forward => ⟨[.forward], some item, queue⟩
      | .abort => ⟨[.abort], none, queue⟩

/-- `tag` is what the tag object happens to hold when the call begins. -/
def doDequeue (disc : PppQueueDisc) (tag : ℕ) (queue : List PppItem) : PppDequeue :=
  disc.dequeueLoop tag queue

/-- The decision for the first packet of a queue by its own tag, or by the default. -/
def judge (disc : PppQueueDisc) (default : ℕ) : List PppItem → Option PppDecision
  | [] => none
  | item :: queue => some (disc.decision queue item (item.peekPacketTag default))

def lastTag (tag : ℕ) (items : List PppItem) : ℕ :=
  items.foldl (fun tag item => item.peekPacketTag tag) tag

def OwnDecisions (disc : PppQueueDisc) (tag : ℕ) (queue : List PppItem) : Prop :=
  ∀ k d, (disc.doDequeue tag queue).decisions[k]? = some d →
    disc.judge tag (queue.drop k) = some d

/-- An untagged packet behind packets that are all to be dropped is judged by the last tag before
it as it is by the default. -/
def Agrees (disc : PppQueueDisc) (tag : ℕ) (queue : List PppItem) : Prop :=
  ∀ k item rest, queue.drop k = item :: rest → item.tag = none →
    (∀ j < k, disc.judge tag (queue.drop j) = some .drop) →
    disc.decision rest item (lastTag tag (queue.take k)) = disc.decision rest item tag

variable {disc : PppQueueDisc} {tag : ℕ} {queue : List PppItem}

theorem dequeueLoop_drop (item : PppItem)
    (hd : disc.decision queue item (item.peekPacketTag tag) = .drop) :
    disc.dequeueLoop tag (item :: queue) =
      let out := disc.dequeueLoop (item.peekPacketTag tag) queue
      ⟨.drop :: out.decisions, out.item, out.queue⟩ := by
  simp only [dequeueLoop, hd]

theorem dequeueLoop_forward (item : PppItem)
    (hd : disc.decision queue item (item.peekPacketTag tag) = .forward) :
    disc.dequeueLoop tag (item :: queue) = ⟨[.forward], some item, queue⟩ := by
  simp only [dequeueLoop, hd]

theorem dequeueLoop_abort (item : PppItem)
    (hd : disc.decision queue item (item.peekPacketTag tag) = .abort) :
    disc.dequeueLoop tag (item :: queue) = ⟨[.abort], none, queue⟩ := by
  simp only [dequeueLoop, hd]

/-- A packet is looked at behind packets that the tag object dropped, with what it has then. -/
theorem decisions_getElem? {k : ℕ} {d : PppDecision} :
    (disc.dequeueLoop tag queue).decisions[k]? = some d ↔
      (∀ j < k, disc.judge (lastTag tag (queue.take j)) (queue.drop j) = some .drop) ∧
        disc.judge (lastTag tag (queue.take k)) (queue.drop k) = some d := by
  induction queue generalizing tag k with
  | nil => simp [dequeueLoop, judge]
  | cons item queue ih =>
    have hfirst : disc.judge tag (item :: queue) =
        some (disc.decision queue item (item.peekPacketTag tag)) := rfl
    cases k with
    | zero =>
      rw [List.take_zero, List.drop_zero, lastTag, List.foldl_nil, hfirst]
      cases hd : disc.decision queue item (item.peekPacketTag tag) with
      | forward => simp [dequeueLoop_forward item hd]
      | drop => simp [dequeueLoop_drop item hd]
      | abort => simp [dequeueLoop_abort item hd]
    | succ k =>
      have hall : (∀ j < k + 1, disc.judge (lastTag tag ((item :: queue).take j))
          ((item :: queue).drop j) = some .drop) ↔
          disc.decision queue item (item.peekPacketTag tag) = .drop ∧
          ∀ j < k, disc.judge (lastTag (item.peekPacketTag tag) (queue.take j)) (queue.drop j) =
            some .drop := by
        constructor
        · intro hdrop
          refine ⟨Option.some.inj (hdrop 0 (Nat.succ_pos k)), fun j hj => ?_⟩
          exact hdrop (j + 1) (Nat.succ_lt_succ hj)
        · intro hdrop j hj
          cases j with
          | zero => exact congrArg some hdrop.1
          | succ j => exact hdrop.2 j (Nat.lt_of_succ_lt_succ hj)
      have hlast : lastTag tag ((item :: queue).take (k + 1)) =
          lastTag (item.peekPacketTag tag) (queue.take k) := rfl
      rw [hall, hlast, List.drop_succ_cons, and_assoc, ← ih]
      cases hd : disc.decision queue item (item.peekPacketTag tag) with
      | forward => simp [dequeueLoop_forward item hd]
      | drop => simp [dequeueLoop_drop item hd]
      | abort => simp [dequeueLoop_abort item hd]

theorem Agrees.judge (h : disc.Agrees tag queue) {k : ℕ}
    (hdrop : ∀ j < k, disc.judge tag (queue.drop j) = some .drop) :
    disc.judge (lastTag tag (queue.take k)) (queue.drop k) = disc.judge tag (queue.drop k) := by
  cases hitems : queue.drop k with
  | nil => rfl
  | cons item rest =>
    cases htag : item.tag with
    | none =>
      have hsame := h k item rest hitems htag hdrop
      simp only [PppQueueDisc.judge, PppItem.peekPacketTag, htag, Option.getD_none, hsame]
    | some ppp => simp only [PppQueueDisc.judge, PppItem.peekPacketTag, htag, Option.getD_some]

theorem ownDecisions_iff (disc : PppQueueDisc) (tag : ℕ) (queue : List PppItem) :
    disc.OwnDecisions tag queue ↔ disc.Agrees tag queue := by
  constructor
  · intro hown k item rest hitems htag hdrop
    -- the packets before it are dropped by what the tag object has as well
    have hcarried : ∀ j, j < k →
        disc.judge (lastTag tag (queue.take j)) (queue.drop j) = some .drop := by
      intro j
      induction j using Nat.strong_induction_on with
      | _ j ih =>
        intro hj
        have hbefore := fun i hi => ih i hi (Nat.lt_trans hi hj)
        have howned := hdrop j hj
        cases hcarry : disc.judge (lastTag tag (queue.take j)) (queue.drop j) with
        | none =>
          cases hrest : queue.drop j with
          | nil =>
            rw [hrest] at howned
            cases howned
          | cons item' rest' =>
            rw [hrest] at hcarry
            cases hcarry
        | some d => rw [← howned, hown j d (decisions_getElem?.mpr ⟨hbefore, hcarry⟩)]
    have hlast : disc.judge (lastTag tag (queue.take k)) (queue.drop k) =
        some (disc.decision rest item (item.peekPacketTag (lastTag tag (queue.take k)))) := by
      rw [hitems]
      rfl
    have hdecision := hown k _ (decisions_getElem?.mpr ⟨hcarried, hlast⟩)
    rw [hitems] at hdecision
    simp only [judge, PppItem.peekPacketTag, htag, Option.getD_none, Option.some.injEq] at hdecision
    exact hdecision.symm
  · intro h k d hd
    obtain ⟨hcarried, hlast⟩ := decisions_getElem?.mp hd
    have hown : ∀ j, j < k → disc.judge tag (queue.drop j) = some .drop := by
      intro j
      induction j using Nat.strong_induction_on with
      | _ j ih =>
        intro hj
        rw [← h.judge fun i hi => ih i hi (Nat.lt_trans hi hj), hcarried j hj]
    rw [← h.judge hown, hlast]

def fivePackets : PppQueueDisc := ⟨.packets, 5⟩

/-- The tagged packet is dropped since others came behind it, and so is the first of these, of
which the default would have let five wait. -/
theorem doDequeue_untagged :
    let queue : List PppItem := [⟨100, some 4⟩, ⟨100, none⟩, ⟨100, none⟩]
    queue.foldl (fivePackets.doEnqueue 0) [] = queue ∧ ¬ fivePackets.OwnDecisions 0 queue := by
  refine ⟨by decide, fun hown => ?_⟩
  have hsecond := hown 1 .drop (by decide)
  revert hsecond
  decide

end PppQueueDisc
end NetGymSim.Gma

import NetGymSim.Core.Scheduler
import NetGymSim.Lib.Buckets

/-!
# `CalendarScheduler`

An array of `nBuckets` sorted buckets; an event goes into bucket
`(ts / width) % nBuckets`. The cursor `lastBucket`, `bucketTop`, `lastPrio` points at
the year of the last event removed. `PeekNext` and `DoRemoveNext` walk the buckets
once from the cursor with the same search and differ in the key their minimum starts
from. 64-bit sums and products wrap, and so does the 32-bit `qSize`.
-/

namespace NetGymSim.Core
open NetGymSim.Lib

def add64 (a b : ℕ) : ℕ := (a + b) % 18446744073709551616
def sub64 (a b : ℕ) : ℕ := (a + 18446744073709551616 - b) % 18446744073709551616
def mul64 (a b : ℕ) : ℕ := (a * b) % 18446744073709551616

def add32 (a b : ℕ) : ℕ := (a + b) % 4294967296
def sub32 (a b : ℕ) : ℕ := (a + 4294967296 - b) % 4294967296

structure Calendar where
  reverse : Bool
  buckets : ℕ → List Event := fun _ => []
  nBuckets : ℕ
  width : ℕ
  lastBucket : ℕ
  bucketTop : ℕ
  lastPrio : ℕ
  qSize : ℕ

namespace Calendar

def order (reverse : Bool) (a b : EventKey) : Bool := if reverse then b.lt a else a.lt b

def Before (reverse : Bool) (a b : Event) : Prop := order reverse a.key b.key

instance (reverse : Bool) : DecidableRel (Before reverse) :=
  fun a b => inferInstanceAs (Decidable (order reverse a.key b.key = true))

def nextEvent (reverse : Bool) (bucket : List Event) : Option Event :=
  if reverse then bucket.getLast? else bucket.head?

def popEvent (reverse : Bool) (bucket : List Event) : List Event :=
  if reverse then bucket.dropLast else bucket.tail

def hash (cal : Calendar) (ts : ℕ) : ℕ := ts / cal.width % cal.nBuckets

def init (cal : Calendar) (nBuckets width startPrio : ℕ) : Calendar :=
  { cal with
    buckets := fun _ => []
    nBuckets := nBuckets
    width := width
    lastPrio := startPrio
    lastBucket := startPrio / width % nBuckets
    bucketTop := mul64 (startPrio / width + 1) width }

def new (reverse : Bool) : Calendar :=
  init ⟨reverse, fun _ => [], 0, 0, 0, 0, 0, 0⟩ 2 1 0

def doInsert (cal : Calendar) (ev : Event) : Calendar :=
  { cal with
    buckets := Function.update cal.buckets (cal.hash ev.key.ts)
      ((cal.buckets (cal.hash ev.key.ts)).orderedInsert (Before cal.reverse) ev) }

/-- The variables of the walk over the buckets; `found` is set by a return inside it. -/
structure Search where
  i : ℕ
  bucketTop : ℕ
  minEvent : Event
  minBucket : Option ℕ := none
  found : Option Event := none

def searchAdvance (cal : Calendar) (s : Search) : Turn Search :=
  let s := { s with
    i := (s.i + 1) % cal.nBuckets
    bucketTop := add64 s.bucketTop cal.width }
  if s.i ≠ cal.lastBucket then .again s else .done s

def searchTurn (cal : Calendar) (s : Search) : Turn Search :=
  match nextEvent cal.reverse (cal.buckets s.i) with
  | none => cal.searchAdvance s
  | some next =>
      if next.key.ts < s.bucketTop then .done { s with found := some next }
      else if next.key.lt s.minEvent.key then
        cal.searchAdvance { s with minEvent := next, minBucket := some s.i }
      else cal.searchAdvance s

def search (cal : Calendar) (sentinel : EventKey) : Search :=
  loop cal.searchTurn cal.nBuckets ⟨cal.lastBucket, cal.bucketTop, ⟨0, sentinel⟩, none, none⟩

def peekNext (cal : Calendar) : Event :=
  let s := cal.search ⟨18446744073709551615, 4294967295, 0⟩
  match s.found with
  | some next => next
  | none => s.minEvent

def doRemoveNext (cal : Calendar) : Event × Calendar :=
  let s := cal.search ⟨18446744073709551615, 0, 4294967295⟩
  match s.found with
  | some next =>
      (next, { cal with
        lastBucket := s.i
        lastPrio := next.key.ts
        bucketTop := s.bucketTop
        buckets := Function.update cal.buckets s.i (popEvent cal.reverse (cal.buckets s.i)) })
  | none =>
      let minKey := s.minEvent.key
      let minBucket := s.minBucket.getD 0
      ((nextEvent cal.reverse (cal.buckets minBucket)).getD s.minEvent, { cal with
        lastPrio := minKey.ts
        lastBucket := cal.hash minKey.ts
        bucketTop := mul64 (minKey.ts / cal.width + 1) cal.width
        buckets := Function.update cal.buckets minBucket
          (popEvent cal.reverse (cal.buckets minBucket)) })

def contents (cal : Calendar) : List Event := (List.range cal.nBuckets).flatMap cal.buckets

def sample : ℕ → Calendar → List Event × Calendar
  | 0, cal => ([], cal)
  | n + 1, cal =>
      let r := cal.doRemoveNext
      let rest := sample n r.2
      (r.1 :: rest.1, rest.2)

def separations (samples : List Event) : List ℕ :=
  List.zipWith (fun cur next => sub64 next.key.ts cur.key.ts) samples samples.tail

def widthOf (nSamples : ℕ) (samples : List Event) : ℕ :=
  let total := (separations samples).foldl add64 0
  let twiceAvg := mul64 (total / (nSamples - 1)) 2
  let total := (separations samples).foldl
    (fun sum diff => if diff ≤ twiceAvg then add64 sum diff else sum) 0
  max (mul64 total 3) 1

def nSamples (cal : Calendar) : ℕ :=
  min 25 (if cal.qSize ≤ 5 then cal.qSize else 5 + cal.qSize / 10)

def calculateNewWidth (cal : Calendar) : ℕ × Calendar :=
  if cal.qSize < 2 then (1, cal)
  else
    let r := sample cal.nSamples cal
    (widthOf cal.nSamples r.1, { r.1.foldl doInsert r.2 with
      lastBucket := cal.lastBucket
      bucketTop := cal.bucketTop
      lastPrio := cal.lastPrio })

def doResize (cal : Calendar) (newSize newWidth : ℕ) : Calendar :=
  cal.contents.foldl doInsert (cal.init newSize newWidth cal.lastPrio)

def resize (cal : Calendar) (newSize : ℕ) : Calendar :=
  let r := cal.calculateNewWidth
  r.2.doResize newSize r.1

def resizeUp (cal : Calendar) : Calendar :=
  if cal.qSize > cal.nBuckets * 2 ∧ cal.nBuckets < 32768 then cal.resize (cal.nBuckets * 2)
  else cal

def resizeDown (cal : Calendar) : Calendar :=
  if cal.qSize < cal.nBuckets / 2 then cal.resize (cal.nBuckets / 2) else cal

def insert (cal : Calendar) (ev : Event) : Calendar :=
  { cal.doInsert ev with qSize := add32 cal.qSize 1 }.resizeUp

def isEmpty (cal : Calendar) : Bool := cal.qSize = 0

def removeNext (cal : Calendar) : Event × Calendar :=
  let r := cal.doRemoveNext
  (r.1, { r.2 with qSize := sub32 r.2.qSize 1 }.resizeDown)

def remove (cal : Calendar) (ev : Event) : Calendar :=
  let bucket := cal.hash ev.key.ts
  if (cal.buckets bucket).any fun e => e.key.uid = ev.key.uid then
    { cal with
      buckets := Function.update cal.buckets bucket
        ((cal.buckets bucket).eraseP fun e => e.key.uid = ev.key.uid)
      qSize := sub32 cal.qSize 1 }.resizeDown
  else cal

def impl : SchedulerImpl Calendar where
  insert := insert
  isEmpty := isEmpty
  peekNext := peekNext
  removeNext := removeNext
  remove := remove
  contents := contents

end Calendar
end NetGymSim.Core

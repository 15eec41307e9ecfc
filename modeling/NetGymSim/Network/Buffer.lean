import NetGymSim.Lib.Stretches
import NetGymSim.Lib.Word

/-!
# Byte buffers

A `Buffer` shows a part of a block of memory, with a virtual area of zeros in it that takes no
memory. Blocks are counted, shared, and recycled through a free list. A missing result means that
an assertion fails or that memory outside of a block is accessed.
-/

namespace NetGymSim.Network
open NetGymSim.Lib

/-- `Buffer::Data`; `m_size` is the number of the bytes. -/
structure BufferData where
  count : ℕ
  dirtyStart : ℕ
  dirtyEnd : ℕ
  bytes : List UInt8

/-- The blocks by their number, without those that were deallocated, and the free list from its
back on. Nothing is known of the `unused` bytes an allocation returns. -/
structure BufferHeap where
  blocks : List (Option BufferData)
  freeList : List ℕ
  maxSize : ℕ
  recommendedStart : ℕ
  unused : ℕ → ℕ → UInt8

/-- The offsets are virtual: those behind the zero area count it. -/
structure Buffer where
  data : ℕ
  maxZeroAreaStart : ℕ
  zeroAreaStart : ℕ
  zeroAreaEnd : ℕ
  mStart : ℕ
  mEnd : ℕ
deriving DecidableEq

/-- `Buffer::Iterator`. -/
structure BufferIterator where
  zeroStart : ℕ
  zeroEnd : ℕ
  dataStart : ℕ
  dataEnd : ℕ
  current : ℕ
  data : ℕ

namespace BufferHeap
variable (h : BufferHeap)

def block (d : ℕ) : Option BufferData := h.blocks[d]?.join

def setBlock (d : ℕ) (data : Option BufferData) : BufferHeap :=
  { h with blocks := h.blocks.set d data }

def update (d : ℕ) (f : BufferData → BufferData) : Option BufferHeap :=
  (h.block d).map fun data => h.setBlock d (some (f data))

def addCount (d : ℕ) : Option BufferHeap :=
  h.update d fun data => { data with count := data.count + 1 }

def setDirty (d dirtyStart dirtyEnd : ℕ) : Option BufferHeap :=
  h.update d fun data => { data with dirtyStart, dirtyEnd }

def recommend (n : ℕ) : BufferHeap := { h with recommendedStart := max h.recommendedStart n }

def deallocate (d : ℕ) : Option BufferHeap := do
  let data ← h.block d
  if data.count = 0 then some (h.setBlock d none) else none

def recycle (d : ℕ) : Option BufferHeap := do
  let data ← h.block d
  let maxSize := max h.maxSize data.bytes.length
  if data.count ≠ 0 then none
  else if data.bytes.length < maxSize ∨ 1000 < h.freeList.length then
    deallocate { h with maxSize } d
  else
    some { h with maxSize, freeList := d :: h.freeList }

/-- `m_count--`, and `Recycle` when it is zero then. -/
def release (d : ℕ) : Option BufferHeap := do
  let data ← h.block d
  let h := h.setBlock d (some { data with count := data.count - 1 })
  if data.count - 1 = 0 then h.recycle d else some h

def allocOverProvision : ℕ := 100

def newBytes (reqSize : ℕ) : List UInt8 :=
  let size := (if reqSize = 0 then 1 else reqSize) + allocOverProvision
  (List.range size).map (h.unused h.blocks.length)

def allocate (reqSize : ℕ) : BufferHeap × ℕ :=
  ({ h with blocks := h.blocks ++ [some ⟨1, 0, 0, h.newBytes reqSize⟩] }, h.blocks.length)

/-- The loop of `Create` over the free list. -/
def createFrom (dataSize : ℕ) : BufferHeap → List ℕ → Option (BufferHeap × ℕ)
  | h, [] => some ({ h with freeList := [] }.allocate dataSize)
  | h, d :: rest => do
      let data ← h.block d
      if dataSize ≤ data.bytes.length then
        some ({ h with freeList := rest }.setBlock d (some { data with count := 1 }), d)
      else
        let h ← h.deallocate d
        createFrom dataSize h rest

def create (dataSize : ℕ) : Option (BufferHeap × ℕ) := createFrom dataSize h h.freeList

def read (d a n : ℕ) : Option (List UInt8) := do
  let data ← h.block d
  readAt data.bytes a n

def write (d a : ℕ) (new : List UInt8) : Option BufferHeap := do
  let data ← h.block d
  let bytes ← writeAt data.bytes a new
  some (h.setBlock d (some { data with bytes }))

def memcpy (d a e b n : ℕ) : Option BufferHeap := do
  let new ← h.read e b n
  h.write d a new

end BufferHeap

namespace Buffer
variable (b : Buffer)

def getSize : ℕ := b.mEnd - b.mStart

def getInternalSize : ℕ := b.zeroAreaStart - b.mStart + (b.mEnd - b.zeroAreaEnd)

def getInternalEnd : ℕ := b.mEnd - (b.zeroAreaEnd - b.zeroAreaStart)

def raiseMax : Buffer := { b with maxZeroAreaStart := max b.maxZeroAreaStart b.zeroAreaStart }

def removeAtStart (start : ℕ) : Buffer :=
  let newStart := b.mStart + start
  let zeroSize := b.zeroAreaEnd - b.zeroAreaStart
  if newStart ≤ b.zeroAreaStart then raiseMax { b with mStart := newStart }
  else if newStart ≤ b.zeroAreaEnd then
    let delta := newStart - b.zeroAreaStart
    raiseMax { b with
      mStart := b.zeroAreaStart, zeroAreaEnd := b.zeroAreaEnd - delta, mEnd := b.mEnd - delta }
  else if newStart ≤ b.mEnd then
    raiseMax { b with
      mStart := newStart - zeroSize, mEnd := b.mEnd - zeroSize
      zeroAreaStart := newStart - zeroSize, zeroAreaEnd := newStart - zeroSize }
  else
    raiseMax { b with
      mEnd := b.mEnd - zeroSize, mStart := b.mEnd - zeroSize
      zeroAreaEnd := b.mEnd - zeroSize, zeroAreaStart := b.mEnd - zeroSize }

def removeAtEnd (stop : ℕ) : Buffer :=
  let newEnd := b.mEnd - min stop (b.mEnd - b.mStart)
  if b.zeroAreaEnd < newEnd then raiseMax { b with mEnd := newEnd }
  else if b.zeroAreaStart < newEnd then
    raiseMax { b with mEnd := newEnd, zeroAreaEnd := newEnd }
  else if b.mStart < newEnd then
    raiseMax { b with mEnd := newEnd, zeroAreaEnd := newEnd, zeroAreaStart := newEnd }
  else
    raiseMax { b with mEnd := b.mStart, zeroAreaEnd := b.mStart, zeroAreaStart := b.mStart }

def first : BufferIterator :=
  ⟨b.zeroAreaStart, b.zeroAreaEnd, b.mStart, b.mEnd, b.mStart, b.data⟩

def last : BufferIterator :=
  ⟨b.zeroAreaStart, b.zeroAreaEnd, b.mStart, b.mEnd, b.mEnd, b.data⟩

end Buffer

namespace BufferIterator
variable (it : BufferIterator)

def next (delta : ℕ) : Option BufferIterator :=
  if it.current + delta ≤ it.dataEnd then some { it with current := it.current + delta } else none

def prev (delta : ℕ) : Option BufferIterator :=
  if delta ≤ it.current then some { it with current := it.current - delta } else none

def CheckNoZero (start stop : ℕ) : Prop :=
  ¬(start < it.dataStart ∨ it.dataEnd < stop ∨
    it.zeroStart < stop ∧ start < it.zeroEnd ∧ it.zeroEnd ≠ it.zeroStart ∧ start ≠ stop)

instance (start stop : ℕ) : Decidable (it.CheckNoZero start stop) :=
  inferInstanceAs (Decidable ¬_)

def Check (i : ℕ) : Prop :=
  it.dataStart ≤ i ∧ ¬(it.zeroStart ≤ i ∧ i < it.zeroEnd) ∧ i ≤ it.dataEnd

instance (i : ℕ) : Decidable (it.Check i) := inferInstanceAs (Decidable (_ ∧ ¬_ ∧ _))

/-- Where `WriteU8` with a length and `Write` from an array begin to write. -/
def place : ℕ :=
  if it.current ≤ it.zeroStart then it.current else it.current - (it.zeroEnd - it.zeroStart)

end BufferIterator

namespace BufferHeap
open Buffer BufferIterator
variable (h : BufferHeap)

def writeU8 (it : BufferIterator) (byte : UInt8) : Option BufferHeap :=
  if ¬it.Check it.current then none
  else if it.current < it.zeroStart then h.write it.data it.current [byte]
  else h.write it.data (it.current - (it.zeroEnd - it.zeroStart)) [byte]

/-- `WriteU8` with a length. -/
def writeFill (it : BufferIterator) (byte : UInt8) (len : ℕ) : Option BufferHeap :=
  if it.CheckNoZero it.current (it.current + len) then
    h.write it.data it.place (List.replicate len byte)
  else none

/-- `Write` from an array, which has its size checked as an offset. -/
def writeArray (it : BufferIterator) (buffer : List UInt8) : Option BufferHeap :=
  if it.CheckNoZero it.current buffer.length then h.write it.data it.place buffer else none

/-- `Write` from an iterator up to another: what is before the zero area, zeros for those in it,
and what is behind it. -/
def writeRange (it start stop : BufferIterator) : Option BufferHeap := do
  let size := stop.current - start.current
  if start.data = stop.data ∧ start.current ≤ stop.current ∧ start.zeroStart = stop.zeroStart ∧
      start.zeroEnd = stop.zeroEnd ∧ it.data ≠ start.data ∧
      it.CheckNoZero it.current (it.current + size) then
    let before :=
      if start.current ≤ start.zeroStart then min size (start.zeroStart - start.current) else 0
    let h ← h.memcpy it.data it.current start.data start.current before
    let inside :=
      if start.current + before ≤ start.zeroEnd then
        min (size - before) (start.zeroEnd - (start.current + before))
      else 0
    let h ← h.write it.data (it.current + before) (List.replicate inside 0)
    let current := start.current + before + inside
    let behind := min (size - before - inside) (start.dataEnd - current)
    h.memcpy it.data (it.current + before + inside) start.data
      (current - (start.zeroEnd - start.zeroStart)) behind
  else none

/-- `Initialize`, with only a zero area. -/
def initializeWith (zeroSize : ℕ) : Option (BufferHeap × Buffer) := do
  let (h, d) ← h.create 0
  let data ← h.block d
  let start := min data.bytes.length h.recommendedStart
  let h ← h.setDirty d start (start + zeroSize)
  some (h, ⟨d, start, start, start + zeroSize, start, start + zeroSize⟩)

def copy (o : Buffer) : Option (BufferHeap × Buffer) := do
  let h ← h.addCount o.data
  some (h, { o with maxZeroAreaStart := o.zeroAreaStart })

def assign (b o : Buffer) : Option (BufferHeap × Buffer) := do
  let h ← if b.data = o.data then some h else (h.release b.data).bind fun h => h.addCount o.data
  some (h.recommend b.maxZeroAreaStart, o)

def destroy (b : Buffer) : Option BufferHeap := (h.recommend b.maxZeroAreaStart).release b.data

def addAtStart (b : Buffer) (start : ℕ) : Option (BufferHeap × Buffer) := do
  let data ← h.block b.data
  let isDirty := 1 < data.count ∧ data.dirtyStart < b.mStart
  if start ≤ b.mStart ∧ ¬isDirty then
    if data.count = 1 ∨ b.mStart = data.dirtyStart then
      let h ← h.setDirty b.data (b.mStart - start) data.dirtyEnd
      some (h, raiseMax { b with mStart := b.mStart - start })
    else none
  else
    let (h, d) ← h.create (b.getInternalSize + start)
    let h ← h.memcpy d start b.data b.mStart b.getInternalSize
    let h ← h.release b.data
    -- `delta` takes `m_start` to `start`, and then it is 0
    let b := { b with
      data := d, mStart := 0, zeroAreaStart := b.zeroAreaStart - b.mStart + start
      zeroAreaEnd := b.zeroAreaEnd - b.mStart + start, mEnd := b.mEnd - b.mStart + start }
    let h ← h.setDirty d b.mStart b.mEnd
    some (h, b.raiseMax)

def addAtEnd (b : Buffer) (stop : ℕ) : Option (BufferHeap × Buffer) := do
  let data ← h.block b.data
  let isDirty := 1 < data.count ∧ b.mEnd < data.dirtyEnd
  if b.getInternalEnd + stop ≤ data.bytes.length ∧ ¬isDirty then
    if data.count = 1 ∨ b.mEnd = data.dirtyEnd then
      let h ← h.setDirty b.data data.dirtyStart (b.mEnd + stop)
      some (h, raiseMax { b with mEnd := b.mEnd + stop })
    else none
  else
    let (h, d) ← h.create (b.getInternalSize + stop)
    let h ← h.memcpy d 0 b.data b.mStart b.getInternalSize
    let h ← h.release b.data
    -- `delta` takes `m_start` to 0
    let b := { b with
      data := d, mStart := 0, zeroAreaStart := b.zeroAreaStart - b.mStart
      zeroAreaEnd := b.zeroAreaEnd - b.mStart, mEnd := b.mEnd - b.mStart + stop }
    let h ← h.setDirty d b.mStart b.mEnd
    some (h, b.raiseMax)

def createFragment (b : Buffer) (start length : ℕ) : Option (BufferHeap × Buffer) := do
  let (h, tmp) ← h.copy b
  let tmp := tmp.removeAtStart start
  some (h, tmp.removeAtEnd (sub32 b.getSize (start + length)))

def createFullCopy (b : Buffer) : Option (BufferHeap × Buffer) :=
  let zeroSize := b.zeroAreaEnd - b.zeroAreaStart
  let dataStart := b.zeroAreaStart - b.mStart
  let dataEnd := b.mEnd - b.zeroAreaEnd
  if zeroSize ≠ 0 then do
    let (h, tmp) ← h.initializeWith 0
    let (h, tmp) ← h.addAtStart tmp zeroSize
    let h ← h.writeFill tmp.first 0 zeroSize
    let (h, tmp) ← h.addAtStart tmp dataStart
    let bytes ← h.read b.data b.mStart dataStart
    let h ← h.writeArray tmp.first bytes
    let (h, tmp) ← h.addAtEnd tmp dataEnd
    let i ← tmp.last.prev dataEnd
    let bytes ← h.read b.data b.zeroAreaStart dataEnd
    let h ← h.writeArray i bytes
    some (h, tmp)
  else h.copy b

/-- `*this = CreateFullCopy()`, which is also what `PeekData` does first. -/
def transformIntoRealBuffer (b : Buffer) : Option (BufferHeap × Buffer) := do
  let (h, tmp) ← h.createFullCopy b
  let (h, b) ← h.assign b tmp
  let h ← h.destroy tmp
  some (h, b)

/-- The condition of the first path of `AddAtEnd` for a buffer, where the zero areas merge. -/
def Merges (data : BufferData) (b o : Buffer) : Prop :=
  data.count = 1 ∧ (b.mEnd = b.zeroAreaEnd ∨ b.zeroAreaStart = b.zeroAreaEnd) ∧
    b.mEnd = data.dirtyEnd ∧ o.mStart = o.zeroAreaStart ∧ 0 < o.zeroAreaEnd - o.zeroAreaStart

instance (data : BufferData) (b o : Buffer) : Decidable (Merges data b o) :=
  inferInstanceAs (Decidable (_ ∧ _))

def mergeZeros (b o : Buffer) : Buffer :=
  let zeroSize := o.zeroAreaEnd - o.zeroAreaStart
  { b with
    zeroAreaStart := if b.zeroAreaStart = b.zeroAreaEnd then b.mEnd else b.zeroAreaStart
    zeroAreaEnd := b.mEnd + zeroSize, mEnd := b.mEnd + zeroSize }

def append (b o : Buffer) : Option (BufferHeap × Buffer) := do
  let data ← h.block b.data
  if Merges data b o then
    let b := mergeZeros b o
    let h ← h.setDirty b.data data.dirtyStart b.zeroAreaEnd
    let endData := o.mEnd - o.zeroAreaEnd
    let (h, b) ← h.addAtEnd b endData
    let dst ← b.last.prev endData
    let src ← o.last.prev endData
    let h ← h.writeRange dst src o.last
    some (h, b)
  else
    let (h, b) ← h.transformIntoRealBuffer b
    let (h, b) ← h.addAtEnd b o.getSize
    let destStart ← b.last.prev o.getSize
    let h ← h.writeRange destStart o.first o.last
    some (h, b)

/-- `Deserialize` with the zero area's size and the two pieces of data found in its input. A block
that was there before is not released. -/
def deserialize (zeroDataLength : ℕ) (start stop : List UInt8) : Option (BufferHeap × Buffer) := do
  let (h, b) ← h.initializeWith zeroDataLength
  let (h, b) ← h.addAtStart b start.length
  let h ← h.writeArray b.first start
  let (h, b) ← h.addAtEnd b stop.length
  let tmp ← b.last.prev stop.length
  let h ← h.writeArray tmp stop
  some (h, b)

/-- What `CopyData` copies to an array of this size. -/
def copyData (b : Buffer) (size : ℕ) : Option (List UInt8) := do
  let tmpsize := min (b.zeroAreaStart - b.mStart) size
  let before ← h.read b.data b.mStart tmpsize
  let size := size - tmpsize
  let tmpsize := min (b.zeroAreaEnd - b.zeroAreaStart) size
  let size := size - tmpsize
  let behind ← h.read b.data b.zeroAreaStart (min (b.mEnd - b.zeroAreaEnd) size)
  some (before ++ List.replicate tmpsize 0 ++ behind)

end BufferHeap
end NetGymSim.Network

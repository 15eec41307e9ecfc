import NetGymSim.Lib.ByteCodec
import NetGymSim.Lib.Sink

/-!
# `Packet::Serialize`

A packet is written as five sections: the nix-vector, the byte tags, the packet tags, the metadata
and the buffer. Each is preceded by its length and followed by as many unwritten bytes as fill its
last word. The lists hold what the iterators of the source go through.
-/

namespace NetGymSim.Network
open NetGymSim.Lib

def roundUp (n : ℕ) : ℕ := (n + 3) / 4 * 4

def word (v : ℕ) : List ℕ := WordCodec.u32.write v

/-- In host order, the low word first. -/
def word64 (v : ℕ) : List ℕ := word v ++ word (v / 4294967296)

/-! ### The nix-vector -/

structure NixVector where
  totalBitSize : ℕ
  used : ℕ
  nixVector : List ℕ
  epoch : ℕ

namespace NixVector

def getSerializedSize (n : NixVector) : ℕ :=
  if n.totalBitSize = 0 then 4 else 4 + 4 + 4 * n.nixVector.length + 4

def words (n : NixVector) : List ℕ :=
  n.totalBitSize :: if n.totalBitSize = 0 then [] else n.used :: n.nixVector ++ [n.epoch]

def serialize (n : NixVector) (maxSize : ℕ) (s : Sink) : Except Sink Sink :=
  if maxSize < n.getSerializedSize then .error s else .ok (s.writeAt s.p (n.words.flatMap word))

end NixVector

/-! ### Tags -/

/-- The words that precede the data of a tag and the data. -/
structure RawTag where
  words : List ℕ
  data : List ℕ

def tagsSize (tags : List RawTag) : ℕ :=
  4 + (tags.map fun t => 4 * t.words.length + roundUp t.data.length).sum

/-- Each tag that is written is counted in the first word of the section, at `start`. -/
def serializeTags (maxSize start : ℕ) : ℕ → List RawTag → Sink → Except Sink Sink
  | _, [], s => .ok s
  | numberOfTags, t :: tags, s => do
      let s ← t.words.foldlM (fun s w => s.put maxSize 4 (word w)) s
      let s ← s.put maxSize (roundUp t.data.length) t.data
      serializeTags maxSize start (numberOfTags + 1) tags
        (s.writeAt start (word (numberOfTags + 1)))

def serializeTagList (tags : List RawTag) (maxSize : ℕ) (s : Sink) : Except Sink Sink := do
  let s' ← s.put maxSize 4 (word 0)
  serializeTags maxSize s.p 0 tags s'

structure PacketTag where
  hash : ℕ
  data : List ℕ

def PacketTag.raw (t : PacketTag) : RawTag := ⟨[t.data.length, t.hash], t.data⟩

structure ByteTag where
  hash : ℕ
  tagStart : ℕ
  tagEnd : ℕ
  data : List ℕ

def ByteTag.raw (t : ByteTag) : RawTag := ⟨[t.hash, t.data.length, t.tagStart, t.tagEnd], t.data⟩

/-! ### Metadata -/

/-- A small item and its extra item; `name` is what `TypeId::GetName` says of its type. -/
structure MetadataItem where
  typeUid : ℕ
  name : List ℕ
  size : ℕ
  chunkUid : ℕ
  fragmentStart : ℕ
  fragmentEnd : ℕ
  packetUid : ℕ

/-- No item is added while metadata is not enabled. -/
structure Metadata where
  enable : Bool
  packetUid : ℕ
  items : List MetadataItem
  skipped : enable = false → items = []

namespace MetadataItem

def uid (i : MetadataItem) : ℕ := i.typeUid / 2

def getSerializedSize (i : MetadataItem) : ℕ :=
  (if i.uid = 0 then 4 else 4 + i.name.length) + (1 + 4 + 2 + 4 + 4 + 8)

def pieces (i : MetadataItem) : List (List ℕ) :=
  (if i.uid = 0 then [word 0] else [word i.name.length, i.name]) ++
    [WordCodec.u8.write (i.typeUid % 2), word i.size, WordCodec.u16.write i.chunkUid,
      word i.fragmentStart, word i.fragmentEnd, word64 i.packetUid]

end MetadataItem

namespace Metadata

def getSerializedSize (m : Metadata) : ℕ :=
  if m.enable then 8 + (m.items.map MetadataItem.getSerializedSize).sum else 8

def addToRaw (maxSize : ℕ) (bytes : List ℕ) (s : Sink) : Except Sink Sink :=
  s.put maxSize bytes.length bytes

def serialize (m : Metadata) (maxSize : ℕ) (s : Sink) : Except Sink Sink :=
  (word64 m.packetUid :: m.items.flatMap MetadataItem.pieces).foldlM
    (fun s bytes => addToRaw maxSize bytes s) s

end Metadata

/-! ### The buffer -/

/-- The bytes before and after the zero area. -/
structure BufferContents where
  zeroAreaLength : ℕ
  dataStart : List ℕ
  dataEnd : List ℕ

namespace BufferContents

def getSerializedSize (b : BufferContents) : ℕ :=
  4 + 4 + roundUp b.dataStart.length + 4 + roundUp b.dataEnd.length

def serialize (b : BufferContents) (maxSize : ℕ) (s : Sink) : Except Sink Sink := do
  let s ← s.put maxSize 4 (word b.zeroAreaLength)
  let s ← s.put maxSize 4 (word b.dataStart.length)
  let s ← s.put maxSize (roundUp b.dataStart.length) b.dataStart
  let s ← s.put maxSize 4 (word b.dataEnd.length)
  s.put maxSize (roundUp b.dataEnd.length) b.dataEnd

end BufferContents

/-! ### The packet -/

structure PacketParts where
  nixVector : Option NixVector
  byteTagList : List ByteTag
  packetTagList : List PacketTag
  metadata : Metadata
  buffer : BufferContents

namespace PacketParts

def packetTagSize (p : PacketParts) : ℕ := tagsSize (p.packetTagList.map PacketTag.raw)

def byteTagSize (p : PacketParts) : ℕ := tagsSize (p.byteTagList.map ByteTag.raw)

def getSerializedSize (p : PacketParts) : ℕ :=
  (match p.nixVector with
    | some n => roundUp n.getSerializedSize + 4
    | none => 4) +
  (roundUp p.packetTagSize + 4) + (roundUp p.byteTagSize + 4) +
  (roundUp p.metadata.getSerializedSize + 4) + (roundUp p.buffer.getSerializedSize + 4)

end PacketParts

/-- Sizes are `uint32_t`; their sum does not wrap. -/
structure Packet extends PacketParts where
  fits : toPacketParts.getSerializedSize < 4294967296

/-- The five blocks of `Packet::Serialize`: only the section's own size is compared and counted,
the length before it and the bytes that round it up are not. Nothing reads the counters that the
last section leaves. -/
def serializeSection (maxSize sectionSize : ℕ) (serialize : ℕ → Sink → Except Sink Sink)
    (s : Sink) : Except Sink Sink :=
  if s.size + sectionSize ≤ maxSize then
    let prefixed := s.writeAt s.p (word (sectionSize + 4))
    match serialize sectionSize { prefixed with p := s.p + 4, size := 0 } with
    | .ok s' =>
        .ok { s' with p := s.p + 4 + roundUp sectionSize, size := s.size + sectionSize }
    | .error s' => .error s'
  else .error s

/-- Without a nix-vector only the length is written, and here it is counted. -/
def serializeNix (maxSize : ℕ) (nixVector : Option NixVector) (s : Sink) : Except Sink Sink :=
  match nixVector with
  | some n => serializeSection maxSize n.getSerializedSize n.serialize s
  | none => s.put maxSize 4 (word 4)

namespace PacketParts

def run (p : PacketParts) (maxSize : ℕ) (s : Sink) : Except Sink Sink := do
  let s ← serializeNix maxSize p.nixVector s
  let s ← serializeSection maxSize p.byteTagSize
    (serializeTagList (p.byteTagList.map ByteTag.raw)) s
  let s ← serializeSection maxSize p.packetTagSize
    (serializeTagList (p.packetTagList.map PacketTag.raw)) s
  let s ← serializeSection maxSize p.metadata.getSerializedSize p.metadata.serialize s
  serializeSection maxSize p.buffer.getSerializedSize p.buffer.serialize s

end PacketParts

namespace Packet

/-- The value that `Serialize` returns and the bytes it writes, with their places in the
destination. -/
def serialize (p : Packet) (maxSize : ℕ) : ℕ × List (ℕ × ℕ) :=
  match p.run maxSize {} with
  | .ok s => (1, s.written)
  | .error s => (0, s.written)

end Packet
end NetGymSim.Network

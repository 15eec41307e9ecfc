import NetGymSim.Lib.ByteCodec
import NetGymSim.Lib.Word

/-!
# The bytes of a control message

The members of the header object that `Serialize` and `Deserialize` share, the setters that
compose a message of each type, and the two switches over the type. The length of a message
and the number of links are members of their own, apart from the vectors. The setters are
given what fits the types of their parameters.
-/

namespace NetGymSim.Gma.Wire
open NetGymSim.Lib

structure MxControlHeader where
  type : ℕ := 0
  connectionId : ℕ := 0
  msgBytes : ℕ := 0
  sequenceNumber : ℕ := 0
  timeStamp : ℕ := 0
  linkStatus : ℕ := 0
  probeFlag : ℕ := 0
  rCid : ℕ := 0
  flowId : ℕ := 0
  n : ℕ := 0
  owdVector : List ℕ := []
  reverseFlag : ℕ := 0
  kVector : List ℕ := []
  l : ℕ := 0
  queueingDelayVector : List ℕ := []
  startSn : ℕ := 0
  delay : ℕ := 0
  trafficDirection : ℕ := 0
  testDuration : ℕ := 0
  channelId : ℕ := 255
  deriving DecidableEq, Repr

namespace MxControlHeader

def mxControlHeaderLength : ℕ := 2

def getSerializedSize (h : MxControlHeader) : ℕ := mxControlHeaderLength + h.msgBytes

section Setters

def setType (h : MxControlHeader) (type : ℕ) : Option MxControlHeader :=
  match type with
  | 1 => some { h with type, msgBytes := 9 }
  | 5 => some { h with type }
  | 6 => some { h with type, msgBytes := 6 }
  | 7 => some { h with type }
  | 8 => some { h with type, msgBytes := 10 }
  | 9 => some { h with type, msgBytes := 9 }
  | 10 => some { h with type, msgBytes := 8 }
  | _ => none

/-- A vector that was not measured is filled up with 255, after what the member holds. -/
def measured (n : ℕ) (k old given : List ℕ) : Option (List ℕ) :=
  if given.length = 0 then some (old ++ List.replicate n 255)
  else if k.length ≠ given.length then none
  else some given

def setTsuKandMeasureVectors (h : MxControlHeader) (k owd queueingDelay : List ℕ) :
    Option MxControlHeader := do
  let n := k.length % 256
  let owdVector ← measured n k h.owdVector owd
  let queueingDelayVector ← measured n k h.queueingDelayVector queueingDelay
  some { h with kVector := k, n, owdVector, queueingDelayVector, msgBytes := 7 + 3 * n }

def setTsaOwdVectors (h : MxControlHeader) (owd : List ℕ) : MxControlHeader :=
  let n := owd.length % 256
  { h with owdVector := owd, n, msgBytes := 12 + n }

end Setters

section Switches

def payload (h : MxControlHeader) : Option (List ℕ) :=
  match h.type with
  | 1 => some (WordCodec.u16.write h.sequenceNumber ++ (WordCodec.u8.write h.linkStatus ++
      (WordCodec.u8.write h.probeFlag ++ (WordCodec.u8.write h.rCid ++
      WordCodec.u32.write h.timeStamp))))
  | 5 => do
    let k ← writeVector h.n h.kVector
    let owd ← writeVector h.n h.owdVector
    let queueingDelay ← writeVector h.n h.queueingDelayVector
    some (WordCodec.u16.write h.sequenceNumber ++ (WordCodec.u8.write h.linkStatus ++
      (WordCodec.u8.write h.reverseFlag ++ (WordCodec.u8.write h.flowId ++
      (WordCodec.u8.write h.n ++ (k ++ (WordCodec.u8.write h.l ++
      (owd ++ queueingDelay))))))))
  | 6 => some (WordCodec.u16.write h.sequenceNumber ++ WordCodec.u32.write h.timeStamp)
  | 7 => do
    let owd ← writeVector h.n h.owdVector
    some (WordCodec.u16.write h.sequenceNumber ++ (WordCodec.u32.write h.timeStamp ++
      (WordCodec.u8.write h.flowId ++ (WordCodec.be24.write h.startSn ++
      (WordCodec.u8.write h.delay ++ (WordCodec.u8.write h.n ++ owd))))))
  | 8 => some (WordCodec.u16.write h.sequenceNumber ++ (WordCodec.u32.write h.timeStamp ++
      (WordCodec.u8.write h.flowId ++ (WordCodec.u8.write h.trafficDirection ++
      (WordCodec.u8.write h.testDuration ++ WordCodec.u8.write h.channelId)))))
  | 9 => some (WordCodec.u16.write h.sequenceNumber ++ (WordCodec.u32.write h.timeStamp ++
      (WordCodec.u8.write h.flowId ++ (WordCodec.u8.write h.trafficDirection ++
      WordCodec.u8.write h.testDuration))))
  | 10 => some (WordCodec.u16.write h.sequenceNumber ++ (WordCodec.u32.write h.timeStamp ++
      (WordCodec.u8.write h.flowId ++ WordCodec.u8.write h.trafficDirection)))
  | _ => none

def serialize (h : MxControlHeader) : Option (List ℕ) :=
  h.payload.map fun bytes =>
    WordCodec.u8.write h.type ++ (WordCodec.u8.write h.connectionId ++ bytes)

def readTsu (h : MxControlHeader) (bytes : List ℕ) : Option (MxControlHeader × List ℕ) := do
  let (sequenceNumber, bytes) ← WordCodec.u16.read bytes
  let (linkStatus, bytes) ← WordCodec.u8.read bytes
  let (reverseFlag, bytes) ← WordCodec.u8.read bytes
  let (flowId, bytes) ← WordCodec.u8.read bytes
  let (n, bytes) ← WordCodec.u8.read bytes
  let (kVector, bytes) ← readVector n bytes
  let (l, bytes) ← WordCodec.u8.read bytes
  let (owdVector, bytes) ← readVector n bytes
  let (queueingDelayVector, bytes) ← readVector n bytes
  some ({ h with
    sequenceNumber, linkStatus, reverseFlag, flowId, n, kVector, l, owdVector
    queueingDelayVector, msgBytes := 7 + 3 * n }, bytes)

def readTsa (h : MxControlHeader) (bytes : List ℕ) : Option (MxControlHeader × List ℕ) := do
  let (sequenceNumber, bytes) ← WordCodec.u16.read bytes
  let (timeStamp, bytes) ← WordCodec.u32.read bytes
  let (flowId, bytes) ← WordCodec.u8.read bytes
  let (startSn, bytes) ← WordCodec.be24.read bytes
  let (delay, bytes) ← WordCodec.u8.read bytes
  let (n, bytes) ← WordCodec.u8.read bytes
  let (owd, bytes) ← readVector n bytes
  some ({ h with
    sequenceNumber, timeStamp, flowId, startSn, delay, n
    owdVector := h.owdVector ++ owd, msgBytes := 12 + n }, bytes)

def readProbe (h : MxControlHeader) (bytes : List ℕ) : Option (MxControlHeader × List ℕ) := do
  let (sequenceNumber, bytes) ← WordCodec.u16.read bytes
  let (linkStatus, bytes) ← WordCodec.u8.read bytes
  let (probeFlag, bytes) ← WordCodec.u8.read bytes
  let (rCid, bytes) ← WordCodec.u8.read bytes
  let (timeStamp, bytes) ← WordCodec.u32.read bytes
  some ({ h with sequenceNumber, linkStatus, probeFlag, rCid, timeStamp, msgBytes := 9 }, bytes)

def readAck (h : MxControlHeader) (bytes : List ℕ) : Option (MxControlHeader × List ℕ) := do
  let (sequenceNumber, bytes) ← WordCodec.u16.read bytes
  let (timeStamp, bytes) ← WordCodec.u32.read bytes
  some ({ h with sequenceNumber, timeStamp, msgBytes := 6 }, bytes)

def readQos (h : MxControlHeader) (bytes : List ℕ) : Option (MxControlHeader × List ℕ) := do
  let (sequenceNumber, bytes) ← WordCodec.u16.read bytes
  let (timeStamp, bytes) ← WordCodec.u32.read bytes
  let (flowId, bytes) ← WordCodec.u8.read bytes
  let (trafficDirection, bytes) ← WordCodec.u8.read bytes
  some ({ h with sequenceNumber, timeStamp, flowId, trafficDirection, msgBytes := 8 }, bytes)

def readFields (h : MxControlHeader) (bytes : List ℕ) : Option (MxControlHeader × List ℕ) :=
  match h.type with
  | 1 => h.readProbe bytes
  | 5 => h.readTsu bytes
  | 6 => h.readAck bytes
  | 7 => h.readTsa bytes
  | 8 => do
    let (h, bytes) ← h.readQos bytes
    let (testDuration, bytes) ← WordCodec.u8.read bytes
    let (channelId, bytes) ← WordCodec.u8.read bytes
    some ({ h with testDuration, channelId, msgBytes := 10 }, bytes)
  | 9 => do
    let (h, bytes) ← h.readQos bytes
    let (testDuration, bytes) ← WordCodec.u8.read bytes
    some ({ h with testDuration, msgBytes := 9 }, bytes)
  | 10 => h.readQos bytes
  | _ => none

/-- The header, the number of bytes that is returned, and the bytes not read. -/
def deserialize (h : MxControlHeader) (bytes : List ℕ) :
    Option (MxControlHeader × ℕ × List ℕ) := do
  let (type, bytes) ← WordCodec.u8.read bytes
  let (connectionId, bytes) ← WordCodec.u8.read bytes
  let (h, bytes) ← { h with type, connectionId }.readFields bytes
  some (h, mxControlHeaderLength + h.msgBytes, bytes)

end Switches

section Messages

/-- A message of each type; the fields fit the parameters of their setters. -/
inductive Message
  | probe (sequenceNumber : Fin 65536) (linkStatus probeFlag rCid : Fin 256)
      (timeStamp : Fin 4294967296)
  | tsu (sequenceNumber : Fin 65536) (linkStatus reverseFlag flowId l : Fin 256)
      (k owd queueingDelay : List (Fin 256))
  | ack (sequenceNumber : Fin 65536) (timeStamp : Fin 4294967296)
  | tsa (sequenceNumber : Fin 65536) (timeStamp : Fin 4294967296) (flowId : Fin 256)
      (startSn : Fin 4294967296) (delay : Fin 256) (owd : List (Fin 256))
  | qosTestingRequest (sequenceNumber : Fin 65536) (timeStamp : Fin 4294967296)
      (flowId trafficDirection testDuration channelId : Fin 256)
  | qosTestingStartNotify (sequenceNumber : Fin 65536) (timeStamp : Fin 4294967296)
      (flowId trafficDirection testDuration : Fin 256)
  | qosViolation (sequenceNumber : Fin 65536) (timeStamp : Fin 4294967296)
      (flowId trafficDirection : Fin 256)
  deriving DecidableEq

def Message.links : Message → ℕ
  | .tsu _ _ _ _ _ k _ _ => k.length
  | .tsa _ _ _ _ _ owd => owd.length
  | _ => 0

def byteList (v : List (Fin 256)) : List ℕ := v.map Fin.val

def compose (old : MxControlHeader) (connectionId : Fin 256) : Message → Option MxControlHeader
  | .probe sequenceNumber linkStatus probeFlag rCid timeStamp => do
    let h ← old.setType 1
    some { h with
      connectionId, sequenceNumber, linkStatus, probeFlag, rCid, timeStamp }
  | .tsu sequenceNumber linkStatus reverseFlag flowId l k owd queueingDelay => do
    let h ← old.setType 5
    let h ← h.setTsuKandMeasureVectors (byteList k) (byteList owd) (byteList queueingDelay)
    some { h with connectionId, sequenceNumber, linkStatus, reverseFlag, flowId, l }
  | .ack sequenceNumber timeStamp => do
    let h ← old.setType 6
    some { h with connectionId, sequenceNumber, timeStamp }
  | .tsa sequenceNumber timeStamp flowId startSn delay owd => do
    let h ← old.setType 7
    some { h.setTsaOwdVectors (byteList owd) with
      connectionId, sequenceNumber, timeStamp, flowId, startSn, delay }
  | .qosTestingRequest sequenceNumber timeStamp flowId trafficDirection testDuration
      channelId => do
    let h ← old.setType 8
    some { h with
      connectionId, sequenceNumber, timeStamp, flowId, trafficDirection, testDuration, channelId }
  | .qosTestingStartNotify sequenceNumber timeStamp flowId trafficDirection testDuration => do
    let h ← old.setType 9
    some { h with
      connectionId, sequenceNumber, timeStamp, flowId, trafficDirection, testDuration }
  | .qosViolation sequenceNumber timeStamp flowId trafficDirection => do
    let h ← old.setType 10
    some { h with connectionId, sequenceNumber, timeStamp, flowId, trafficDirection }

def fields (h : MxControlHeader) : List (List ℕ) :=
  [h.type, h.connectionId, h.sequenceNumber] :: match h.type with
    | 1 => [[h.linkStatus, h.probeFlag, h.rCid, h.timeStamp]]
    | 5 => [[h.linkStatus, h.reverseFlag, h.flowId, h.n, h.l], h.kVector, h.owdVector,
        h.queueingDelayVector]
    | 6 => [[h.timeStamp]]
    | 7 => [[h.timeStamp, h.flowId, h.startSn, h.delay, h.n], h.owdVector]
    | 8 => [[h.timeStamp, h.flowId, h.trafficDirection, h.testDuration, h.channelId]]
    | 9 => [[h.timeStamp, h.flowId, h.trafficDirection, h.testDuration]]
    | 10 => [[h.timeStamp, h.flowId, h.trafficDirection]]
    | _ => []

end Messages

section RoundTrip
variable {old into h h' : MxControlHeader} {connectionId : Fin 256} {bytes : List ℕ}

theorem u8_read (v : Fin 256) (rest : List ℕ) :
    WordCodec.u8.read (WordCodec.u8.write v ++ rest) = some (v.val, rest) :=
  WordCodec.u8.read_write_of_lt v.isLt rest

theorem u16_read (v : Fin 65536) (rest : List ℕ) :
    WordCodec.u16.read (WordCodec.u16.write v ++ rest) = some (v.val, rest) :=
  WordCodec.u16.read_write_of_lt v.isLt rest

theorem u32_read (v : Fin 4294967296) (rest : List ℕ) :
    WordCodec.u32.read (WordCodec.u32.write v ++ rest) = some (v.val, rest) :=
  WordCodec.u32.read_write_of_lt v.isLt rest

theorem length_byteList (v : List (Fin 256)) : (byteList v).length = v.length :=
  List.length_map ..

theorem byteList_lt (v : List (Fin 256)) : ∀ b ∈ byteList v, b < 256 := by
  intro b hb
  obtain ⟨b, _, rfl⟩ := List.mem_map.mp hb
  exact b.isLt

structure Carries (into h h' : MxControlHeader) (bytes : List ℕ) : Prop where
  payload : h.payload = some bytes
  length : bytes.length = h.msgBytes
  read : ∀ rest, { into with type := h.type, connectionId := h.connectionId }.readFields
    (bytes ++ rest) = some (h', rest)
  msgBytes : h'.msgBytes = h.msgBytes
  head : h.type < 256 ∧ h.connectionId < 256

theorem Carries.serialize (hc : Carries into h h' bytes) : h.serialize =
    some (WordCodec.u8.write h.type ++ (WordCodec.u8.write h.connectionId ++ bytes)) := by
  rw [MxControlHeader.serialize, hc.payload]
  rfl

theorem Carries.length_bytes (hc : Carries into h h' bytes) :
    (WordCodec.u8.write h.type ++ (WordCodec.u8.write h.connectionId ++ bytes)).length =
      h.getSerializedSize := by
  rw [List.length_append, List.length_append, WordCodec.length_write, WordCodec.length_write,
    hc.length, getSerializedSize, ← Nat.add_assoc]
  rfl

theorem Carries.deserialize (hc : Carries into h h' bytes) (rest : List ℕ) :
    into.deserialize
        (WordCodec.u8.write h.type ++ (WordCodec.u8.write h.connectionId ++ bytes) ++ rest) =
      some (h', h.getSerializedSize, rest) := by
  have hread := hc.read rest
  rw [MxControlHeader.deserialize, List.append_assoc, List.append_assoc,
    WordCodec.u8.read_write_of_lt hc.head.1]
  simp only [Option.bind_eq_bind, Option.bind_some, WordCodec.u8.read_write_of_lt hc.head.2,
    hread, hc.msgBytes]
  rfl

theorem measured_spec {n : ℕ} {k old given v : List ℕ} (hm : measured n k old given = some v)
    (hn : k.length = n) (hg : ∀ b ∈ given, b < 256) :
    n ≤ v.length ∧ ((v.take n).map (· % 256) = v ↔ (given = [] → old = [])) := by
  unfold measured at hm
  by_cases hzero : given.length = 0
  · rw [if_pos hzero, Option.some.injEq] at hm
    subst hm
    have hnil : given = [] := List.length_eq_zero_iff.mp hzero
    refine ⟨by simp, fun heq _ => ?_, fun hold => ?_⟩
    · have hlen := congrArg List.length heq
      simp only [List.length_map, List.length_take, List.length_append,
        List.length_replicate] at hlen
      exact List.length_eq_zero_iff.mp (by omega)
    · rw [hold hnil, List.nil_append, List.take_of_length_le (by simp), List.map_replicate]
  · rw [if_neg hzero] at hm
    by_cases hlen : k.length = given.length
    · rw [if_neg (not_not_intro hlen), Option.some.injEq] at hm
      subst hm
      refine ⟨Nat.le_of_eq (hn.symm.trans hlen), fun _ hnil => ?_, fun _ => ?_⟩
      · exact absurd (List.length_eq_zero_iff.mpr hnil) hzero
      · rw [List.take_of_length_le (Nat.le_of_eq (hn.symm.trans hlen).symm)]
        exact (List.map_congr_left fun b hb => Nat.mod_eq_of_lt (hg b hb)).trans (List.map_id _)
    · rw [if_pos hlen] at hm
      cases hm

def Message.Kept (old into : MxControlHeader) : Message → Prop
  | .tsu _ _ _ _ _ _ owd queueingDelay => (owd = [] → old.owdVector = []) ∧
      (queueingDelay = [] → old.queueingDelayVector = [])
  | .tsa _ _ _ startSn _ _ => into.owdVector = [] ∧ startSn.val < 16777216
  | _ => True

theorem probe_carries {s : Fin 65536} {l p r : Fin 256} {t : Fin 4294967296}
    (hc : compose old connectionId (.probe s l p r t) = some h) (into : MxControlHeader) :
    ∃ h' bytes, Carries into h h' bytes ∧ h'.fields = h.fields := by
  simp only [compose, setType, Option.bind_eq_bind, Option.bind_some, Option.some.injEq] at hc
  subst hc
  refine ⟨{ into with
    type := 1, connectionId, sequenceNumber := s, linkStatus := l, probeFlag := p, rCid := r
    timeStamp := t, msgBytes := 9 }, _, ⟨rfl, rfl, fun rest => ?_, rfl, ?_⟩, rfl⟩
  · simp only [readFields, readProbe, List.append_assoc, u8_read, u16_read, u32_read,
      Option.bind_eq_bind, Option.bind_some]
  · exact ⟨(by decide : 1 < 256), connectionId.isLt⟩

theorem ack_carries {s : Fin 65536} {t : Fin 4294967296}
    (hc : compose old connectionId (.ack s t) = some h) (into : MxControlHeader) :
    ∃ h' bytes, Carries into h h' bytes ∧ h'.fields = h.fields := by
  simp only [compose, setType, Option.bind_eq_bind, Option.bind_some, Option.some.injEq] at hc
  subst hc
  refine ⟨{ into with
    type := 6, connectionId, sequenceNumber := s, timeStamp := t, msgBytes := 6 }, _,
    ⟨rfl, rfl, fun rest => ?_, rfl, ?_⟩, rfl⟩
  · simp only [readFields, readAck, List.append_assoc, u16_read, u32_read,
      Option.bind_eq_bind, Option.bind_some]
  · exact ⟨(by decide : 6 < 256), connectionId.isLt⟩

theorem qosTestingRequest_carries {s : Fin 65536} {t : Fin 4294967296} {f d u c : Fin 256}
    (hc : compose old connectionId (.qosTestingRequest s t f d u c) = some h)
    (into : MxControlHeader) :
    ∃ h' bytes, Carries into h h' bytes ∧ h'.fields = h.fields := by
  simp only [compose, setType, Option.bind_eq_bind, Option.bind_some, Option.some.injEq] at hc
  subst hc
  refine ⟨{ into with
    type := 8, connectionId, sequenceNumber := s, timeStamp := t, flowId := f
    trafficDirection := d, testDuration := u, channelId := c, msgBytes := 10 }, _,
    ⟨rfl, rfl, fun rest => ?_, rfl, ?_⟩, rfl⟩
  · simp only [readFields, readQos, List.append_assoc, u8_read, u16_read, u32_read,
      Option.bind_eq_bind, Option.bind_some]
  · exact ⟨(by decide : 8 < 256), connectionId.isLt⟩

theorem qosTestingStartNotify_carries {s : Fin 65536} {t : Fin 4294967296} {f d u : Fin 256}
    (hc : compose old connectionId (.qosTestingStartNotify s t f d u) = some h)
    (into : MxControlHeader) :
    ∃ h' bytes, Carries into h h' bytes ∧ h'.fields = h.fields := by
  simp only [compose, setType, Option.bind_eq_bind, Option.bind_some, Option.some.injEq] at hc
  subst hc
  refine ⟨{ into with
    type := 9, connectionId, sequenceNumber := s, timeStamp := t, flowId := f
    trafficDirection := d, testDuration := u, msgBytes := 9 }, _,
    ⟨rfl, rfl, fun rest => ?_, rfl, ?_⟩, rfl⟩
  · simp only [readFields, readQos, List.append_assoc, u8_read, u16_read, u32_read,
      Option.bind_eq_bind, Option.bind_some]
  · exact ⟨(by decide : 9 < 256), connectionId.isLt⟩

theorem qosViolation_carries {s : Fin 65536} {t : Fin 4294967296} {f d : Fin 256}
    (hc : compose old connectionId (.qosViolation s t f d) = some h) (into : MxControlHeader) :
    ∃ h' bytes, Carries into h h' bytes ∧ h'.fields = h.fields := by
  simp only [compose, setType, Option.bind_eq_bind, Option.bind_some, Option.some.injEq] at hc
  subst hc
  refine ⟨{ into with
    type := 10, connectionId, sequenceNumber := s, timeStamp := t, flowId := f
    trafficDirection := d, msgBytes := 8 }, _, ⟨rfl, rfl, fun rest => ?_, rfl, ?_⟩, rfl⟩
  · simp only [readFields, readQos, List.append_assoc, u8_read, u16_read, u32_read,
      Option.bind_eq_bind, Option.bind_some]
  · exact ⟨(by decide : 10 < 256), connectionId.isLt⟩

theorem tsa_carries {s : Fin 65536} {t : Fin 4294967296} {f d : Fin 256}
    {startSn : Fin 4294967296} {owd : List (Fin 256)} (hn : owd.length ≤ 255)
    (hc : compose old connectionId (.tsa s t f startSn d owd) = some h) (into : MxControlHeader) :
    ∃ h' bytes, Carries into h h' bytes ∧
      (h'.fields = h.fields ↔ into.owdVector = [] ∧ startSn.val < 16777216) := by
  have hlen : owd.length % 256 = owd.length := Nat.mod_eq_of_lt (Nat.lt_succ_of_le hn)
  have hwrite := writeVector_bytes (byteList_lt owd)
  have hread : ∀ rest, readVector owd.length (byteList owd ++ rest) =
      some (byteList owd, rest) := fun rest =>
    length_byteList owd ▸ readVector_append (byteList owd) rest
  rw [length_byteList] at hwrite
  simp only [compose, setType, setTsaOwdVectors, Option.bind_eq_bind, Option.bind_some,
    Option.some.injEq, length_byteList, hlen] at hc
  subst hc
  refine ⟨{ into with
    type := 7, connectionId, sequenceNumber := s, timeStamp := t, flowId := f
    startSn := startSn % 16777216, delay := d, n := owd.length
    owdVector := into.owdVector ++ byteList owd, msgBytes := 12 + owd.length },
    WordCodec.u16.write s ++ (WordCodec.u32.write t ++ (WordCodec.u8.write f ++
      (WordCodec.be24.write startSn ++ (WordCodec.u8.write d ++
      (WordCodec.u8.write owd.length ++ byteList owd))))),
    ⟨?_, ?_, fun rest => ?_, rfl, (by decide : 7 < 256), connectionId.isLt⟩, ?_⟩
  · simp only [payload, hwrite, Option.bind_eq_bind, Option.bind_some]
  · simp only [List.length_append, WordCodec.length_write, length_byteList]
    simp only [WordCodec.u8, WordCodec.u16, WordCodec.u32, WordCodec.be24]
    omega
  · have hcount : ∀ rest, WordCodec.u8.read (WordCodec.u8.write owd.length ++ rest) =
        some (owd.length, rest) := WordCodec.u8.read_write_of_lt (Nat.lt_succ_of_le hn)
    simp only [readFields, readTsa, List.append_assoc, u8_read, u16_read, u32_read,
      WordCodec.be24.read_write, hcount, hread, Option.bind_eq_bind, Option.bind_some]
    rfl
  · simp only [fields, List.cons.injEq, and_true, true_and, List.append_left_eq_self]
    rw [Nat.mod_eq_iff_lt (by decide), and_comm]

theorem tsu_carries {s : Fin 65536} {ls r f l : Fin 256} {k owd q : List (Fin 256)}
    (hn : k.length ≤ 255)
    (hc : compose old connectionId (.tsu s ls r f l k owd q) = some h) (into : MxControlHeader) :
    ∃ h' bytes, Carries into h h' bytes ∧ (h'.fields = h.fields ↔
      (owd = [] → old.owdVector = []) ∧ (q = [] → old.queueingDelayVector = [])) := by
  have hlen : k.length % 256 = k.length := Nat.mod_eq_of_lt (Nat.lt_succ_of_le hn)
  have hwrite := writeVector_bytes (byteList_lt k)
  rw [length_byteList] at hwrite
  simp only [compose, setType, setTsuKandMeasureVectors, Option.bind_eq_bind, Option.bind_some,
    length_byteList, hlen, Option.bind_eq_some_iff, Option.some.injEq] at hc
  obtain ⟨_, ⟨owdVector, howd, queueing, hq, rfl⟩, rfl⟩ := hc
  have hnil : ∀ v : List (Fin 256), byteList v = [] ↔ v = [] := fun v => List.map_eq_nil_iff
  obtain ⟨howdLe, howdKept⟩ := measured_spec howd (length_byteList k) (byteList_lt owd)
  obtain ⟨hqLe, hqKept⟩ := measured_spec hq (length_byteList k) (byteList_lt q)
  rw [hnil] at howdKept hqKept
  have hread : ∀ v : List ℕ, k.length = v.length → ∀ rest,
      readVector k.length (v ++ rest) = some (v, rest) := by
    intro v hv rest
    rw [hv]
    exact readVector_append v rest
  have hkept : ∀ v : List ℕ, k.length ≤ v.length →
      k.length = ((v.take k.length).map (· % 256)).length := by
    intro v hv
    rw [List.length_map, List.length_take, Nat.min_eq_left hv]
  refine ⟨{ into with
    type := 5, connectionId, sequenceNumber := s, linkStatus := ls, reverseFlag := r, flowId := f
    n := k.length, kVector := byteList k, l, msgBytes := 7 + 3 * k.length
    owdVector := (owdVector.take k.length).map (· % 256)
    queueingDelayVector := (queueing.take k.length).map (· % 256) },
    WordCodec.u16.write s ++ (WordCodec.u8.write ls ++ (WordCodec.u8.write r ++
      (WordCodec.u8.write f ++ (WordCodec.u8.write k.length ++ (byteList k ++
      (WordCodec.u8.write l ++ ((owdVector.take k.length).map (· % 256) ++
      (queueing.take k.length).map (· % 256)))))))),
    ⟨?_, ?_, fun rest => ?_, rfl, (by decide : 5 < 256), connectionId.isLt⟩, ?_⟩
  · simp only [payload, hwrite, writeVector_of_le howdLe, writeVector_of_le hqLe,
      Option.bind_eq_bind, Option.bind_some]
  · simp only [List.length_append, WordCodec.length_write, length_byteList,
      ← hkept _ howdLe, ← hkept _ hqLe]
    simp only [WordCodec.u8, WordCodec.u16]
    omega
  · have hcount : ∀ rest, WordCodec.u8.read (WordCodec.u8.write k.length ++ rest) =
        some (k.length, rest) := WordCodec.u8.read_write_of_lt (Nat.lt_succ_of_le hn)
    simp only [readFields, readTsu, List.append_assoc, u8_read, u16_read, hcount,
      hread _ (length_byteList k).symm, hread _ (hkept _ howdLe), hread _ (hkept _ hqLe),
      Option.bind_eq_bind, Option.bind_some]
  · simp only [fields, List.cons.injEq, and_true, true_and]
    exact and_congr howdKept hqKept

theorem compose_carries {m : Message} (hn : m.links ≤ 255)
    (hc : compose old connectionId m = some h) (into : MxControlHeader) :
    ∃ h' bytes, Carries into h h' bytes ∧ (h'.fields = h.fields ↔ m.Kept old into) := by
  have hall (hp : ∃ h' bytes, Carries into h h' bytes ∧ h'.fields = h.fields) :
      ∃ h' bytes, Carries into h h' bytes ∧ (h'.fields = h.fields ↔ True) := by
    obtain ⟨h', bytes, hcarries, heq⟩ := hp
    exact ⟨h', bytes, hcarries, iff_of_true heq trivial⟩
  cases m with
  | probe => exact hall (probe_carries hc into)
  | tsu => exact tsu_carries hn hc into
  | ack => exact hall (ack_carries hc into)
  | tsa => exact tsa_carries hn hc into
  | qosTestingRequest => exact hall (qosTestingRequest_carries hc into)
  | qosTestingStartNotify => exact hall (qosTestingStartNotify_carries hc into)
  | qosViolation => exact hall (qosViolation_carries hc into)

end RoundTrip

section Claim

def SizeExact (h : MxControlHeader) : Prop :=
  ∃ bytes, h.serialize = some bytes ∧ bytes.length = h.getSerializedSize

def Consumes (into h : MxControlHeader) : Prop :=
  ∃ bytes, h.serialize = some bytes ∧ ∀ rest, ∃ h',
    into.deserialize (bytes ++ rest) = some (h', bytes.length, rest)

def ReadsBack (into h : MxControlHeader) : Prop :=
  ∃ bytes, h.serialize = some bytes ∧ ∀ rest h' n rest',
    into.deserialize (bytes ++ rest) = some (h', n, rest') → h'.fields = h.fields

variable {old h : MxControlHeader} {connectionId : Fin 256} {m : Message}

/-- The sizes always agree; the fields are read back when nothing was in the vectors that are
appended to and the start number fits its three bytes. -/
theorem control_header_codec (hn : m.links ≤ 255) (hc : compose old connectionId m = some h)
    (into : MxControlHeader) :
    (SizeExact h ∧ Consumes into h ∧ ReadsBack into h ↔ m.Kept old into) ∧
      SizeExact h ∧ Consumes into h := by
  obtain ⟨h', bytes, hcarries, hkept⟩ := compose_carries hn hc into
  have hsize : SizeExact h := ⟨_, hcarries.serialize, hcarries.length_bytes⟩
  have hconsumes : Consumes into h := by
    refine ⟨_, hcarries.serialize, fun rest => ⟨h', ?_⟩⟩
    rw [hcarries.length_bytes]
    exact hcarries.deserialize rest
  refine ⟨⟨fun hall => ?_, fun hm => ⟨hsize, hconsumes, ?_⟩⟩, hsize, hconsumes⟩
  · obtain ⟨_, hs, hfields⟩ := hall.2.2
    rw [hcarries.serialize, Option.some.injEq] at hs
    exact hkept.mp (hfields [] h' _ _ (hs ▸ hcarries.deserialize []))
  · refine ⟨_, hcarries.serialize, fun rest h'' n rest' hd => ?_⟩
    rw [hcarries.deserialize, Option.some.injEq, Prod.mk.injEq] at hd
    exact hd.1 ▸ hkept.mpr hm

theorem control_header_codec_tsa : ∃ h,
    compose {} 0 (.tsa 3 70000 4 16777215 2 [130, 127]) = some h ∧
      SizeExact h ∧ Consumes {} h ∧ ReadsBack {} h := by
  refine ⟨_, rfl, ?_⟩
  apply (control_header_codec (m := .tsa 3 70000 4 16777215 2 [130, 127]) (by decide) rfl {}).1.mpr
  exact ⟨rfl, by decide⟩

/-- The offset of a TSA lands behind the one that the object holds already. -/
theorem tsa_read_twice : ∃ h, compose {} 0 (.tsa 3 0 0 5 0 [127]) = some h ∧ ¬ ReadsBack h h := by
  refine ⟨_, rfl, ?_⟩
  rintro ⟨bytes, hs, hread⟩
  cases hs
  exact absurd (hread [] _ _ _ rfl) (by decide)

end Claim

end MxControlHeader
end NetGymSim.Gma.Wire

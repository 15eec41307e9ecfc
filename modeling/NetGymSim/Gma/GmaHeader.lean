import NetGymSim.Lib.ByteCodec
import NetGymSim.Lib.Word
import Mathlib.Data.List.GetD
import Mathlib.Data.List.Induction
import Mathlib.Algebra.Order.BigOperators.Group.List
import Mathlib.Algebra.Order.Ring.Nat

/-!
# The GMA header

A flag word and the optional fields whose flags are set. The setters add the size of a field to
a counter each time they are called, and reading a header back does not set that counter. What
the setters are given fits the types of their parameters; the members of a new header other
than the flags and the counter are not initialised.
-/

namespace NetGymSim.Gma.Wire
open NetGymSim.Lib

structure GmaHeader where
  timeStamp : ℕ := 0
  localSequenceNumber : ℕ := 0
  sequenceNumber : ℕ := 0
  flowId : ℕ := 0
  connectionId : ℕ := 0
  clientId : ℕ := 0
  optionBytes : ℕ := 0
  flagsBits : List Bool := List.replicate 16 false
  deriving DecidableEq, Repr

namespace GmaHeader

def gmaHeaderLength : ℕ := 2

def optionSizeList : List ℕ := [1, 0, 1, 1, 1, 1, 3, 4, 2, 0, 0, 0, 0, 0, 0, 0]

def flag (h : GmaHeader) (ind : ℕ) : Bool := h.flagsBits.getD ind false

def getFlags (h : GmaHeader) : ℕ := wordOfBits h.flagsBits

def getSerializedSize (h : GmaHeader) : ℕ := gmaHeaderLength + h.optionBytes

section Setters

def setOption (h : GmaHeader) (ind : ℕ) : GmaHeader :=
  { h with
    flagsBits := h.flagsBits.set ind true
    optionBytes := (h.optionBytes + optionSizeList.getD ind 0) % 65536 }

def setTimeStamp (h : GmaHeader) (timeStamp : ℕ) : GmaHeader :=
  { h with timeStamp }.setOption 7

def setSequenceNumber (h : GmaHeader) (sequenceNumber : ℕ) : GmaHeader :=
  { h with sequenceNumber }.setOption 6

def setLocalSequenceNumber (h : GmaHeader) (localSequenceNumber : ℕ) : GmaHeader :=
  { h with localSequenceNumber }.setOption 5

def setFlowId (h : GmaHeader) (flowId : ℕ) : GmaHeader := { h with flowId }.setOption 3

def setConnectionId (h : GmaHeader) (connectionId : ℕ) : GmaHeader :=
  { h with connectionId }.setOption 2

def setClientId (h : GmaHeader) (clientId : ℕ) : GmaHeader := { h with clientId }.setOption 8

/-- A call of a setter, its argument within the type of the parameter. -/
inductive Setter
  | timeStamp (v : Fin 4294967296)
  | sequenceNumber (v : Fin 4294967296)
  | localSequenceNumber (v : Fin 256)
  | flowId (v : Fin 256)
  | connectionId (v : Fin 256)
  | clientId (v : Fin 65536)
  deriving DecidableEq

def apply (h : GmaHeader) : Setter → GmaHeader
  | .timeStamp v => h.setTimeStamp v
  | .sequenceNumber v => h.setSequenceNumber v
  | .localSequenceNumber v => h.setLocalSequenceNumber v
  | .flowId v => h.setFlowId v
  | .connectionId v => h.setConnectionId v
  | .clientId v => h.setClientId v

end Setters

/-- The checksum, concatenation and fragmentation flags and the reserved ones. -/
def notImplemented : List ℕ := [0, 1, 4, 9, 10, 11, 12, 13, 14, 15]

def fieldBytes (h : GmaHeader) : List ℕ :=
  WordCodec.u16.writeIf (h.flag 8) h.clientId ++
  (WordCodec.u32.writeIf (h.flag 7) h.timeStamp ++
  (WordCodec.be24.writeIf (h.flag 6) h.sequenceNumber ++
  (WordCodec.u8.writeIf (h.flag 5) h.localSequenceNumber ++
  (WordCodec.u8.writeIf (h.flag 3) h.flowId ++
  WordCodec.u8.writeIf (h.flag 2) h.connectionId))))

def serialize (h : GmaHeader) : Option (List ℕ) :=
  if notImplemented.any h.flag then none
  else some (WordCodec.u16.write h.getFlags ++ h.fieldBytes)

def optionBytesOf (flagsBits : List Bool) : ℕ :=
  (List.zipWith (fun size bit => size * bit.toNat) optionSizeList flagsBits).sum

/-- The header, the number of bytes consumed that is returned, and the bytes not read. -/
def deserialize (h : GmaHeader) (bytes : List ℕ) : Option (GmaHeader × ℕ × List ℕ) := do
  let (flags, bytes) ← WordCodec.u16.read bytes
  let h := { h with flagsBits := bitsOfWord 16 flags }
  let (clientId, bytes) ← WordCodec.u16.readIf (h.flag 8) h.clientId bytes
  let (timeStamp, bytes) ← WordCodec.u32.readIf (h.flag 7) h.timeStamp bytes
  let (sequenceNumber, bytes) ← WordCodec.be24.readIf (h.flag 6) h.sequenceNumber bytes
  let (localSequenceNumber, bytes) ←
    WordCodec.u8.readIf (h.flag 5) h.localSequenceNumber bytes
  let (flowId, bytes) ← WordCodec.u8.readIf (h.flag 3) h.flowId bytes
  let (connectionId, bytes) ← WordCodec.u8.readIf (h.flag 2) h.connectionId bytes
  some ({ h with clientId, timeStamp, sequenceNumber, localSequenceNumber, flowId, connectionId },
    gmaHeaderLength + optionBytesOf h.flagsBits, bytes)

section RoundTrip

def readBack (into h : GmaHeader) : GmaHeader :=
  { into with
    flagsBits := h.flagsBits
    clientId := if h.flag 8 then h.clientId % 65536 else into.clientId
    timeStamp := if h.flag 7 then h.timeStamp % 4294967296 else into.timeStamp
    sequenceNumber := if h.flag 6 then h.sequenceNumber % 16777216 else into.sequenceNumber
    localSequenceNumber :=
      if h.flag 5 then h.localSequenceNumber % 256 else into.localSequenceNumber
    flowId := if h.flag 3 then h.flowId % 256 else into.flowId
    connectionId := if h.flag 2 then h.connectionId % 256 else into.connectionId }

structure WellFormed (h : GmaHeader) : Prop where
  length : h.flagsBits.length = 16
  implemented : ∀ ind ∈ notImplemented, h.flag ind = false

variable {h : GmaHeader}

theorem flags_cases {bits : List Bool} (hl : bits.length = 16) :
    ∃ b0 b1 b2 b3 b4 b5 b6 b7 b8 b9 b10 b11 b12 b13 b14 b15,
      bits = [b0, b1, b2, b3, b4, b5, b6, b7, b8, b9, b10, b11, b12, b13, b14, b15] :=
  match bits, hl with
  | [_, _, _, _, _, _, _, _, _, _, _, _, _, _, _, _], _ =>
      ⟨_, _, _, _, _, _, _, _, _, _, _, _, _, _, _, _, rfl⟩

theorem serialize_eq (hw : WellFormed h) :
    h.serialize = some (WordCodec.u16.write h.getFlags ++ h.fieldBytes) := by
  have hany : notImplemented.any h.flag = false := by
    rw [List.any_eq_false]
    intro ind hind
    rw [hw.implemented ind hind]
    exact Bool.false_ne_true
  rw [serialize, hany]
  rfl

theorem length_fieldBytes (hw : WellFormed h) :
    h.fieldBytes.length = optionBytesOf h.flagsBits := by
  have hno := hw.implemented
  simp only [fieldBytes, List.length_append, WordCodec.length_writeIf, flag] at hno ⊢
  obtain ⟨b0, b1, b2, b3, b4, b5, b6, b7, b8, b9, b10, b11, b12, b13, b14, b15, hb⟩ :=
    flags_cases hw.length
  rw [hb] at hno ⊢
  have h0 : b0 = false := hno 0 (by decide)
  have h1 : b4 = false := hno 4 (by decide)
  subst h0 h1
  simp only [optionBytesOf, optionSizeList, List.zipWith_cons_cons, List.sum_cons]
  simp [WordCodec.u8, WordCodec.u16, WordCodec.u32, WordCodec.be24]
  omega

theorem getFlags_lt (hw : WellFormed h) : h.getFlags < 65536 := by
  have := wordOfBits_lt h.flagsBits
  rwa [hw.length] at this

theorem deserialize_serialize (hw : WellFormed h) (into : GmaHeader) :
    into.deserialize (WordCodec.u16.write h.getFlags ++ h.fieldBytes) =
      some (into.readBack h, (WordCodec.u16.write h.getFlags ++ h.fieldBytes).length, []) := by
  have hbits : bitsOfWord 16 (h.getFlags % WordCodec.u16.modulus) = h.flagsBits := by
    have hlt := getFlags_lt hw
    rw [show h.getFlags % WordCodec.u16.modulus = h.getFlags from Nat.mod_eq_of_lt hlt, getFlags,
      ← hw.length, bitsOfWord_wordOfBits]
  have hlast : WordCodec.u8.writeIf (h.flag 2) h.connectionId =
      WordCodec.u8.writeIf (h.flag 2) h.connectionId ++ [] := (List.append_nil _).symm
  rw [List.length_append, WordCodec.length_write, length_fieldBytes hw, deserialize, fieldBytes]
  rw [hlast]
  have hflag : ∀ ind, { into with flagsBits := h.flagsBits }.flag ind = h.flag ind := fun _ => rfl
  simp only [WordCodec.read_write, hbits, Option.bind_eq_bind, Option.bind_some, hflag,
    WordCodec.readIf_writeIf]
  rfl

theorem readBack_wellFormed (hw : WellFormed h) (into : GmaHeader) :
    WellFormed (into.readBack h) := ⟨hw.length, hw.implemented⟩

theorem fieldBytes_readBack (into : GmaHeader) : (into.readBack h).fieldBytes = h.fieldBytes := by
  have hflag : ∀ ind, (into.readBack h).flag ind = h.flag ind := fun _ => rfl
  simp only [fieldBytes, hflag]
  simp only [readBack]
  congr 1
  · exact WordCodec.u16.writeIf_readIf _ _ _
  congr 1
  · exact WordCodec.u32.writeIf_readIf _ _ _
  congr 1
  · exact WordCodec.be24.writeIf_readIf _ _ _
  congr 1
  · exact WordCodec.u8.writeIf_readIf _ _ _
  congr 1
  · exact WordCodec.u8.writeIf_readIf _ _ _
  · exact WordCodec.u8.writeIf_readIf _ _ _

end RoundTrip

section Calls

def Setter.ind : Setter → ℕ
  | .timeStamp _ => 7
  | .sequenceNumber _ => 6
  | .localSequenceNumber _ => 5
  | .flowId _ => 3
  | .connectionId _ => 2
  | .clientId _ => 8

def Setter.value : Setter → ℕ
  | .timeStamp v | .sequenceNumber v => v
  | .localSequenceNumber v | .flowId v | .connectionId v => v
  | .clientId v => v

def sizeOf (ind : ℕ) : ℕ := optionSizeList.getD ind 0

def field (h : GmaHeader) : ℕ → ℕ
  | 2 => h.connectionId
  | 3 => h.flowId
  | 5 => h.localSequenceNumber
  | 6 => h.sequenceNumber
  | 7 => h.timeStamp
  | 8 => h.clientId
  | _ => 0

def fresh (uninitialised : GmaHeader) : GmaHeader :=
  { uninitialised with optionBytes := 0, flagsBits := List.replicate 16 false }

def afterCalls (uninitialised : GmaHeader) (calls : List Setter) : GmaHeader :=
  calls.foldl apply (fresh uninitialised)

/-- What was given to the last setter of an option. -/
def lastValue (calls : List Setter) (ind : ℕ) : Option ℕ :=
  calls.foldl (fun last call => if call.ind = ind then some call.value else last) none

variable {h : GmaHeader} {calls : List Setter} {call : Setter} {ind v : ℕ}

theorem Setter.ind_mem (call : Setter) : call.ind < 16 ∧ call.ind ∉ notImplemented := by
  have key : ∀ ind ∈ [2, 3, 5, 6, 7, 8], ind < 16 ∧ ind ∉ notImplemented := by decide
  refine key _ ?_
  cases call <;> simp [Setter.ind]

theorem apply_flagsBits : (h.apply call).flagsBits = h.flagsBits.set call.ind true := by
  cases call <;> rfl

theorem apply_optionBytes :
    (h.apply call).optionBytes = (h.optionBytes + sizeOf call.ind) % 65536 := by
  cases call <;> rfl

theorem field_apply : (h.apply call).field call.ind = call.value := by
  cases call <;> rfl

theorem field_apply_of_ne (hne : ind ≠ call.ind) : (h.apply call).field ind = h.field ind := by
  unfold field
  split
  all_goals cases call <;> first | rfl | exact absurd rfl hne

theorem flag_apply (hl : h.flagsBits.length = 16) :
    (h.apply call).flag ind = if ind = call.ind then true else h.flag ind := by
  have hlt : call.ind < h.flagsBits.length := by
    rw [hl]
    exact call.ind_mem.1
  unfold flag
  rw [apply_flagsBits, List.getD_eq_getElem?_getD, List.getD_eq_getElem?_getD]
  by_cases heq : ind = call.ind
  · subst heq
    rw [if_pos rfl, List.getElem?_set_self hlt]
    rfl
  · rw [if_neg heq, List.getElem?_set_ne (Ne.symm heq)]

theorem lastValue_mem (h : lastValue calls ind = some v) : ∃ call ∈ calls, call.ind = ind ∧
    call.value = v := by
  unfold lastValue at h
  induction calls using List.reverseRecOn with
  | nil => cases h
  | append_singleton calls call ih =>
    rw [List.foldl_append, List.foldl_cons, List.foldl_nil] at h
    split at h
    · rename_i hind
      exact ⟨call, List.mem_append_right _ (List.mem_singleton_self _), hind, Option.some.inj h⟩
    · obtain ⟨c, hc, hcv⟩ := ih h
      exact ⟨c, List.mem_append_left _ hc, hcv⟩

structure SetBy (calls : List Setter) (h : GmaHeader) : Prop where
  wellFormed : WellFormed h
  optionBytes : h.optionBytes = (calls.map fun call => sizeOf call.ind).sum % 65536
  last : ∀ ind, lastValue calls ind = if h.flag ind then some (h.field ind) else none
  flags : ∀ ind, h.flag ind ↔ ind ∈ calls.map Setter.ind

theorem SetBy.apply (hs : SetBy calls h) (call : Setter) :
    SetBy (calls ++ [call]) (h.apply call) := by
  have hl := hs.wellFormed.length
  refine ⟨⟨?_, fun ind hind => ?_⟩, ?_, fun ind => ?_, fun ind => ?_⟩
  · rw [apply_flagsBits, List.length_set, hl]
  · rw [flag_apply hl, hs.wellFormed.implemented ind hind]
    refine if_neg fun heq => ?_
    rw [heq] at hind
    exact call.ind_mem.2 hind
  · rw [apply_optionBytes, hs.optionBytes, Nat.mod_add_mod, List.map_append, List.sum_append]
    simp
  · unfold lastValue
    rw [List.foldl_append, List.foldl_cons, List.foldl_nil, flag_apply hl]
    by_cases heq : ind = call.ind
    · subst heq
      simp [field_apply]
    · rw [if_neg (Ne.symm heq), if_neg heq, field_apply_of_ne heq]
      exact hs.last ind
  · rw [flag_apply hl, List.map_append, List.mem_append]
    by_cases heq : ind = call.ind
    · simp [heq]
    · simp [heq, hs.flags]

theorem flag_fresh (uninitialised : GmaHeader) (ind : ℕ) :
    (fresh uninitialised).flag ind = false := by
  rw [flag, fresh, List.getD_eq_getElem?_getD, List.getElem?_replicate]
  split <;> rfl

theorem setBy_fresh (uninitialised : GmaHeader) : SetBy [] (fresh uninitialised) := by
  refine ⟨⟨rfl, fun ind _ => flag_fresh _ ind⟩, rfl, fun ind => ?_, fun ind => ?_⟩
  · rw [flag_fresh]
    rfl
  · rw [flag_fresh]
    simp

theorem setBy_afterCalls (uninitialised : GmaHeader) (calls : List Setter) :
    SetBy calls (afterCalls uninitialised calls) := by
  unfold afterCalls
  induction calls using List.reverseRecOn with
  | nil => exact setBy_fresh uninitialised
  | append_singleton calls call ih =>
    rw [List.foldl_append]
    exact ih.apply call

end Calls

section Claim

def distinctBytes (calls : List Setter) : ℕ :=
  ((List.range 16).map fun ind => if ind ∈ calls.map Setter.ind then sizeOf ind else 0).sum

def totalBytes (calls : List Setter) : ℕ := (calls.map fun call => sizeOf call.ind).sum

def SizeExact (h : GmaHeader) : Prop :=
  ∃ bytes, h.serialize = some bytes ∧ bytes.length = h.getSerializedSize

def ReadsBack (into h : GmaHeader) : Prop :=
  ∃ bytes h', h.serialize = some bytes ∧ into.deserialize bytes = some (h', bytes.length, []) ∧
    h'.flagsBits = h.flagsBits ∧ ∀ ind, h.flag ind → h'.field ind = h.field ind

def Reproduces (into h : GmaHeader) : Prop :=
  ∃ bytes h' n rest, h.serialize = some bytes ∧ into.deserialize bytes = some (h', n, rest) ∧
    h'.serialize = some bytes ∧ h'.getSerializedSize = h.getSerializedSize

variable {h into : GmaHeader} {calls : List Setter}

theorem optionBytesOf_eq (hs : SetBy calls h) :
    optionBytesOf h.flagsBits = distinctBytes calls := by
  have hl := hs.wellFormed.length
  have hzip : List.zipWith (fun size bit => size * bit.toNat) optionSizeList h.flagsBits =
      (List.range 16).map fun ind => if ind ∈ calls.map Setter.ind then sizeOf ind else 0 := by
    refine List.ext_getElem (by simp [hl, optionSizeList]) fun ind h1 h2 => ?_
    have hlt : ind < 16 := by simpa using h2
    have hsize : ind < optionSizeList.length := hlt
    have hbit : ind < h.flagsBits.length := hl.symm ▸ hlt
    have hflag : h.flagsBits[ind] = h.flag ind := (List.getD_eq_getElem _ _ hbit).symm
    have hs' : optionSizeList[ind] = sizeOf ind := (List.getD_eq_getElem _ _ hsize).symm
    rw [List.getElem_zipWith, List.getElem_map, List.getElem_range, hflag, hs']
    by_cases hin : ind ∈ calls.map Setter.ind
    · rw [if_pos hin, (hs.flags ind).mpr hin]
      exact Nat.mul_one _
    · have hno : h.flag ind = false := Bool.eq_false_iff.mpr (mt (hs.flags ind).mp hin)
      rw [if_neg hin, hno]
      rfl
  rw [optionBytesOf, hzip, distinctBytes]

theorem length_bytes (hs : SetBy calls h) :
    (WordCodec.u16.write h.getFlags ++ h.fieldBytes).length = 2 + distinctBytes calls := by
  rw [List.length_append, WordCodec.length_write, length_fieldBytes hs.wellFormed,
    optionBytesOf_eq hs]
  rfl

theorem sizeExact_iff (hs : SetBy calls h) :
    SizeExact h ↔ totalBytes calls % 65536 = distinctBytes calls := by
  have hsize : h.getSerializedSize = 2 + totalBytes calls % 65536 := by
    rw [getSerializedSize, hs.optionBytes]
    rfl
  constructor
  · rintro ⟨bytes, hb, hlen⟩
    rw [serialize_eq hs.wellFormed, Option.some.injEq] at hb
    rw [← hb, length_bytes hs, hsize] at hlen
    omega
  · intro heq
    refine ⟨_, serialize_eq hs.wellFormed, ?_⟩
    rw [length_bytes hs, hsize, heq]

def modulusOf : ℕ → ℕ
  | 8 => 65536
  | 7 => 4294967296
  | 6 => 16777216
  | _ => 256

theorem field_readBack {ind : ℕ} (hf : h.flag ind) :
    (into.readBack h).field ind = h.field ind % modulusOf ind := by
  unfold field
  split
  all_goals first | exact if_pos hf | skip
  rfl

theorem Setter.value_lt (call : Setter) : call.ind = 6 ∨ call.value < modulusOf call.ind := by
  cases call with
  | sequenceNumber v => exact .inl rfl
  | timeStamp v | localSequenceNumber v | flowId v | connectionId v | clientId v =>
    exact .inr v.isLt

theorem readsBack_iff (hs : SetBy calls h) :
    ReadsBack into h ↔ ∀ v, lastValue calls 6 = some v → v < 16777216 := by
  have hw := hs.wellFormed
  constructor
  · rintro ⟨bytes, h', hb, hd, _, hfields⟩ v hv
    rw [serialize_eq hw, Option.some.injEq] at hb
    rw [← hb, deserialize_serialize hw, Option.some.injEq, Prod.mk.injEq] at hd
    rw [hs.last 6] at hv
    split at hv
    · rename_i hf
      have hsame := hfields 6 hf
      rw [← hd.1, field_readBack hf, Option.some.inj hv] at hsame
      exact hsame ▸ Nat.mod_lt v (by decide)
    · cases hv
  · intro hseq
    refine ⟨_, _, serialize_eq hw, deserialize_serialize hw into, rfl, fun ind hf => ?_⟩
    have hlast := hs.last ind
    rw [if_pos hf] at hlast
    obtain ⟨call, _, rfl, hvalue⟩ := lastValue_mem hlast
    rw [field_readBack hf]
    rcases call.value_lt with hind | hlt
    · rw [hind] at hlast ⊢
      exact Nat.mod_eq_of_lt (hseq _ hlast)
    · exact Nat.mod_eq_of_lt (hvalue ▸ hlt)

theorem reproduces_iff (hs : SetBy calls h) (hinto : into.optionBytes = 0) :
    Reproduces into h ↔ totalBytes calls % 65536 = 0 := by
  have hw := hs.wellFormed
  constructor
  · rintro ⟨bytes, h', n, rest, hb, hd, _, hsize⟩
    rw [serialize_eq hw, Option.some.injEq] at hb
    rw [← hb, deserialize_serialize hw, Option.some.injEq, Prod.mk.injEq] at hd
    rw [← hd.1, getSerializedSize, getSerializedSize, hs.optionBytes] at hsize
    have hzero : (into.readBack h).optionBytes = 0 := hinto
    rw [hzero] at hsize
    exact (Nat.add_left_cancel hsize).symm
  · intro heq
    refine ⟨_, into.readBack h, _, _, serialize_eq hw, deserialize_serialize hw into, ?_, ?_⟩
    · rw [serialize_eq (readBack_wellFormed hw into), fieldBytes_readBack]
      rfl
    · have hzero : (into.readBack h).optionBytes = 0 := hinto
      have htotal : h.optionBytes = 0 := hs.optionBytes.trans heq
      rw [getSerializedSize, getSerializedSize, hzero, htotal]

theorem sizeOf_pos (call : Setter) : 0 < sizeOf call.ind := by
  cases call <;> exact Nat.succ_pos _

/-- The codec agrees with itself on every count only for a header without options; the three
parts hold when the options were set once each up to a wrap of the counter, when the sequence
number fits its three bytes, and when the counter is zero as it is after reading. -/
theorem gma_header_codec (uninitialised uninitialised' : GmaHeader) (calls : List Setter) :
    let h := afterCalls uninitialised calls
    let into := fresh uninitialised'
    (SizeExact h ∧ ReadsBack into h ∧ Reproduces into h ↔ calls = []) ∧
    (SizeExact h ↔ totalBytes calls % 65536 = distinctBytes calls) ∧
    (ReadsBack into h ↔ ∀ v, lastValue calls 6 = some v → v < 16777216) ∧
    (Reproduces into h ↔ totalBytes calls % 65536 = 0) := by
  have hs := setBy_afterCalls uninitialised calls
  refine ⟨⟨?_, ?_⟩, sizeExact_iff hs, readsBack_iff hs, reproduces_iff hs rfl⟩
  · rintro ⟨hsize, _, hrep⟩
    rw [sizeExact_iff hs] at hsize
    rw [reproduces_iff hs rfl, hsize] at hrep
    by_contra hne
    obtain ⟨call, hcall⟩ := List.exists_mem_of_ne_nil calls hne
    have hle : sizeOf call.ind ≤ distinctBytes calls := by
      refine List.single_le_sum (fun _ _ => Nat.zero_le _) _ ?_
      refine List.mem_map.mpr ⟨call.ind, List.mem_range.mpr call.ind_mem.1, ?_⟩
      exact if_pos (List.mem_map_of_mem hcall)
    have := sizeOf_pos call
    omega
  · rintro rfl
    refine ⟨(sizeExact_iff hs).mpr (by decide), (readsBack_iff hs).mpr ?_,
      (reproduces_iff hs rfl).mpr (by decide)⟩
    intro v hv
    cases hv

/-- A flow id set twice is written once and counted twice; set once it is read back without a
count. -/
theorem flow_id_set_twice :
    ¬ SizeExact (afterCalls {} [.flowId 4, .flowId 4]) ∧
    ¬ Reproduces (fresh {}) (afterCalls {} [.flowId 4]) := by
  constructor
  · rintro ⟨bytes, hb, hlen⟩
    have hs : (afterCalls {} [.flowId 4, .flowId 4]).serialize = some [8, 0, 4] := by decide
    rw [hs, Option.some.injEq] at hb
    rw [← hb] at hlen
    revert hlen
    decide
  · rintro ⟨bytes, h', n, rest, hb, hd, _, hsize⟩
    have hs : (afterCalls {} [.flowId 4]).serialize = some [8, 0, 4] := by decide
    rw [hs, Option.some.injEq] at hb
    have hread : (fresh {}).deserialize [8, 0, 4] =
        some ({ flowId := 4, flagsBits := (afterCalls {} [.flowId 4]).flagsBits }, 3, []) := by
      decide
    rw [← hb, hread, Option.some.injEq, Prod.mk.injEq] at hd
    rw [← hd.1] at hsize
    revert hsize
    decide

end Claim
end GmaHeader
end NetGymSim.Gma.Wire

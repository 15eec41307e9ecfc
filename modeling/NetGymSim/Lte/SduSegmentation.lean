import NetGymSim.Lte.LengthIndicators
import Mathlib.Algebra.BigOperators.Group.List.Basic

/-!
# The data field of a new PDU

RLC UM and RLC AM build the data field of a PDU with the same loop: SDUs are taken from the
front of the transmission buffer while there is room, each but the last with a length
indicator, and what does not fit is given back. A tag on each packet says whether it is an
SDU or which segment of one.
-/

namespace NetGymSim.Lte
open NetGymSim.Lib

/-- `LteRlcSduStatusTag::SduStatus_t`; `ANY_SEGMENT` is never set. -/
inductive SduStatus
  | fullSdu
  | firstSegment
  | middleSegment
  | lastSegment
  deriving DecidableEq

structure TxPdu where
  pdu : List ℕ
  status : SduStatus
  deriving DecidableEq

/-- The two setters of a PDU header that the loop calls. -/
class PduHeader (η : Type) where
  pushExtensionBit : η → ℕ → η
  pushLengthIndicator : η → ℕ → η

export PduHeader (pushExtensionBit pushLengthIndicator)

/-- What the loop leaves: the header, the data field and the transmission buffer. -/
structure Filling (η : Type) where
  header : η
  dataField : List TxPdu
  txBuffer : List TxPdu
  txBufferSize : ℕ

def splitStatus : SduStatus → SduStatus × SduStatus
  | .fullSdu => (.firstSegment, .lastSegment)
  | .lastSegment => (.middleSegment, .lastSegment)
  | status => (status, status)

def wholeStatus : SduStatus → SduStatus
  | .firstSegment => .fullSdu
  | .middleSegment => .lastSegment
  | status => status

section Loop
variable {η : Type} [PduHeader η]

/-- The first segment does not fit or is too long for a length indicator: as much of it as fits
ends the data field, the rest is given back. -/
def Filling.segmentFirst (f : Filling η) (firstSegment : TxPdu) (nextSegmentSize : ℕ) :
    Filling η :=
  let currSegmentSize := min firstSegment.pdu.length nextSegmentSize
  let newSegment := firstSegment.pdu.take currSegmentSize
  let remaining := firstSegment.pdu.drop currSegmentSize
  let tags := splitStatus firstSegment.status
  let header := pushExtensionBit f.header dataFieldFollows
  if remaining.length > 0 then
    { header := header
      dataField := f.dataField ++ [⟨newSegment, tags.1⟩]
      txBuffer := ⟨remaining, tags.2⟩ :: f.txBuffer
      txBufferSize := f.txBufferSize + remaining.length }
  else
    { f with
      header := header
      dataField := f.dataField ++ [⟨newSegment, wholeStatus tags.1⟩] }

def Filling.takeLast (f : Filling η) (firstSegment : TxPdu) : Filling η :=
  { f with
    header := pushExtensionBit f.header dataFieldFollows
    dataField := f.dataField ++ [firstSegment] }

def Filling.takeMore (f : Filling η) (firstSegment : TxPdu) : Filling η :=
  { f with
    header := pushLengthIndicator (pushExtensionBit f.header eLiFieldsFollows)
      firstSegment.pdu.length
    dataField := f.dataField ++ [firstSegment] }

/-- The loop. `firstSegment` has been taken from the buffer already, `txBuffer` is what it
holds behind it. -/
def fillDataField (header : η) (dataField : List TxPdu) (txBufferSize : ℕ) (firstSegment : TxPdu)
    (nextSegmentSize nextSegmentId : ℕ) : List TxPdu → Filling η
  | [] =>
      let f : Filling η := ⟨header, dataField, [], txBufferSize⟩
      if firstSegment.pdu.length = 0 ∨ nextSegmentSize = 0 then f
      else if firstSegment.pdu.length > nextSegmentSize ∨ firstSegment.pdu.length > 2047 then
        f.segmentFirst firstSegment nextSegmentSize
      else f.takeLast firstSegment
  | next :: txBuffer =>
      let f : Filling η := ⟨header, dataField, next :: txBuffer, txBufferSize⟩
      if firstSegment.pdu.length = 0 ∨ nextSegmentSize = 0 then f
      else if firstSegment.pdu.length > nextSegmentSize ∨ firstSegment.pdu.length > 2047 then
        f.segmentFirst firstSegment nextSegmentSize
      else if nextSegmentSize - firstSegment.pdu.length ≤ 2 then f.takeLast firstSegment
      else
        let f := f.takeMore firstSegment
        fillDataField f.header f.dataField (txBufferSize - next.pdu.length) next
          (nextSegmentSize -
            ((if nextSegmentId % 2 ≠ 0 then 2 else 1) + firstSegment.pdu.length))
          (nextSegmentId + 1) txBuffer

end Loop

/-! ### Framing info -/

/-- `FIRST_BYTE`, `NO_FIRST_BYTE`, `LAST_BYTE` and `NO_LAST_BYTE`. -/
def firstByte : ℕ := 0x00
def noFirstByte : ℕ := 0x02
def lastByte : ℕ := 0x00
def noLastByte : ℕ := 0x01

/-- Computed from the tags of the first and of the last piece. A data field is never empty:
PDCP puts its header in front of every SDU. -/
def framingInfo (dataField : List TxPdu) : ℕ :=
  let first := (dataField.head?.map TxPdu.status).getD .fullSdu
  let last := (dataField.getLast?.map TxPdu.status).getD .fullSdu
  (if first = .fullSdu ∨ first = .firstSegment then firstByte else noFirstByte) |||
    (if last = .fullSdu ∨ last = .lastSegment then lastByte else noLastByte)

def dataOf (dataField : List TxPdu) : List ℕ := dataField.flatMap TxPdu.pdu

end NetGymSim.Lte

/-!
## What the segmentation loop takes

`Cut` says what a data field takes from the transmission buffer: whole entries from the front,
the last of them possibly only in part. The loop takes such a cut, pushes one extension bit for
each piece and a length indicator for each but the last, and what the pieces and the pairs
occupy fits in the room it was given.
-/

namespace NetGymSim.Lte
open NetGymSim.Lib

def Queued (t : TxPdu) : Prop := t.pdu ≠ [] ∧ (t.status = .fullSdu ∨ t.status = .lastSegment)

inductive Cut : List TxPdu → List TxPdu → List TxPdu → Prop
  | last (first : TxPdu) (behind : List TxPdu) : Cut (first :: behind) [first] behind
  | part (first : TxPdu) (behind : List TxPdu) {n : ℕ} (hpos : 0 < n) (hlt : n < first.pdu.length) :
      Cut (first :: behind) [⟨first.pdu.take n, (splitStatus first.status).1⟩]
        (⟨first.pdu.drop n, (splitStatus first.status).2⟩ :: behind)
  | more (first : TxPdu) {behind pieces after : List TxPdu} :
      Cut behind pieces after → Cut (first :: behind) (first :: pieces) after

section Cuts
variable {before pieces after : List TxPdu}

theorem dataOf_cons (t : TxPdu) (l : List TxPdu) : dataOf (t :: l) = t.pdu ++ dataOf l :=
  List.flatMap_cons

theorem Cut.dataOf_eq (h : Cut before pieces after) :
    dataOf before = dataOf pieces ++ dataOf after := by
  induction h with
  | last first behind => simp [dataOf]
  | part first behind hpos hlt =>
    rw [dataOf_cons, dataOf_cons, dataOf_cons, ← List.append_assoc]
    simp [dataOf]
  | more first _ ih => rw [dataOf_cons, ih, dataOf_cons, List.append_assoc]

theorem Cut.pieces_ne_nil (h : Cut before pieces after) : pieces ≠ [] := by
  cases h <;> exact List.cons_ne_nil _ _

theorem Cut.queued (h : Cut before pieces after) (hq : ∀ t ∈ before, Queued t) :
    ∀ t ∈ after, Queued t := by
  induction h with
  | last first behind => exact fun t ht => hq t (List.mem_cons_of_mem _ ht)
  | part first behind hpos hlt =>
    intro t ht
    rcases List.mem_cons.mp ht with rfl | ht
    · refine ⟨?_, ?_⟩
      · intro he
        have hlen := congrArg List.length he
        simp only [List.length_drop, List.length_nil] at hlen
        omega
      · rcases (hq first List.mem_cons_self).2 with hs | hs <;> rw [hs] <;> exact Or.inr rfl
    · exact hq t (List.mem_cons_of_mem _ ht)
  | more first _ ih => exact ih fun t ht => hq t (List.mem_cons_of_mem _ ht)

end Cuts

def pushPieces {η : Type} [PduHeader η] (header : η) : List ℕ → η
  | [] => header
  | [_] => pushExtensionBit header dataFieldFollows
  | length :: lengths =>
      pushPieces (pushLengthIndicator (pushExtensionBit header eLiFieldsFollows) length) lengths

def overhead (id n : ℕ) : ℕ := n + (n + id % 2) / 2

theorem overhead_one (n : ℕ) : overhead 1 n = pairsLength n := rfl

theorem overhead_succ (id n : ℕ) :
    overhead id (n + 1) = (if id % 2 ≠ 0 then 2 else 1) + overhead (id + 1) n := by
  unfold overhead
  split_ifs <;> omega

def lengths (pieces : List TxPdu) : List ℕ := pieces.map fun p => p.pdu.length

section Loop
variable {η : Type} [PduHeader η]

/-- What the loop leaves when it starts with `header`, a data field and `room` bytes, from the
segment `id` on, and takes `pieces`. -/
structure Filled (header : η) (dataField : List TxPdu) (room id : ℕ) (before pieces : List TxPdu)
    (r : Filling η) : Prop where
  dataField : r.dataField = dataField ++ pieces
  header : r.header = pushPieces header (lengths pieces)
  short : ∀ p ∈ pieces.dropLast, p.pdu.length ≤ 2047
  fits : overhead id (pieces.length - 1) + (dataOf pieces).length ≤ room
  size : r.txBufferSize = (dataOf r.txBuffer).length
  cut : Cut before pieces r.txBuffer

variable {header : η} {dataField behind : List TxPdu} {first : TxPdu} {room id size : ℕ}

theorem filled_segmentFirst (hq : Queued first) (hroom : 0 < room)
    (hsize : size = (dataOf behind).length) :
    ∃ pieces, Filled header dataField room id (first :: behind) pieces
      (Filling.segmentFirst ⟨header, dataField, behind, size⟩ first room) := by
  have hpos : 0 < first.pdu.length := List.length_pos_iff.mpr hq.1
  unfold Filling.segmentFirst
  dsimp only
  by_cases hrest : (first.pdu.drop (min first.pdu.length room)).length > 0
  · rw [if_pos hrest]
    rw [List.length_drop] at hrest
    have hmin : min first.pdu.length room = room := by omega
    rw [hmin]
    refine ⟨_, ⟨rfl, rfl, by simp, ?_, ?_, .part first behind hroom (by omega)⟩⟩
    · simp only [overhead, List.length_singleton, dataOf, List.flatMap_cons, List.flatMap_nil,
        List.append_nil, List.length_take]
      omega
    · simp only [dataOf_cons, List.length_append]
      omega
  · rw [if_neg hrest]
    rw [List.length_drop] at hrest
    have hmin : min first.pdu.length room = first.pdu.length := by omega
    have hpiece : (⟨first.pdu.take first.pdu.length, wholeStatus (splitStatus first.status).1⟩ :
        TxPdu) = first := by
      obtain ⟨pdu, status⟩ := first
      rcases hq.2 with hs | hs <;>
      · dsimp only at hs
        rw [hs, List.take_length]
        rfl
    rw [hmin, hpiece]
    refine ⟨[first], ⟨rfl, rfl, by simp, ?_, hsize, .last first behind⟩⟩
    simp only [overhead, List.length_singleton, dataOf, List.flatMap_cons, List.flatMap_nil,
      List.append_nil]
    omega

theorem filled_takeLast (hfits : first.pdu.length ≤ room) (hsize : size = (dataOf behind).length) :
    ∃ pieces, Filled header dataField room id (first :: behind) pieces
      (Filling.takeLast ⟨header, dataField, behind, size⟩ first) := by
  refine ⟨[first], ⟨rfl, rfl, by simp, ?_, hsize, .last first behind⟩⟩
  simp only [overhead, List.length_singleton, dataOf, List.flatMap_cons, List.flatMap_nil,
    List.append_nil]
  omega

theorem Filled.more {pieces : List TxPdu} {r : Filling η}
    (h : Filled (pushLengthIndicator (pushExtensionBit header eLiFieldsFollows) first.pdu.length)
      (dataField ++ [first])
      (room - ((if id % 2 ≠ 0 then 2 else 1) + first.pdu.length)) (id + 1) behind pieces r)
    (hshort : first.pdu.length ≤ 2047) (hroom : first.pdu.length + 2 < room) :
    Filled header dataField room id (first :: behind) (first :: pieces) r := by
  obtain ⟨p, ps, rfl⟩ := List.exists_cons_of_ne_nil h.cut.pieces_ne_nil
  refine ⟨?_, ?_, ?_, ?_, h.size, .more first h.cut⟩
  · rw [h.dataField, List.append_assoc]
    rfl
  · rw [h.header]
    rfl
  · intro q hq
    rw [List.dropLast_cons_cons] at hq
    rcases List.mem_cons.mp hq with rfl | hq
    · exact hshort
    · exact h.short q hq
  · have hfits := h.fits
    have hover := overhead_succ id (p :: ps).length.pred
    simp only [List.length_cons, Nat.pred_succ, Nat.add_sub_cancel] at hfits hover ⊢
    rw [dataOf_cons, List.length_append]
    split_ifs at hfits hover <;> omega

theorem fillDataField_filled (hq : ∀ t ∈ first :: behind, Queued t) (hroom : 0 < room)
    (hsize : size = (dataOf behind).length) :
    ∃ pieces, Filled header dataField room id (first :: behind) pieces
      (fillDataField header dataField size first room id behind) := by
  induction behind generalizing header dataField size first room id with
  | nil =>
    have hfirst := hq first List.mem_cons_self
    have hpos : 0 < first.pdu.length := List.length_pos_iff.mpr hfirst.1
    unfold fillDataField
    dsimp only
    rw [if_neg (by omega)]
    split_ifs with hlong
    · exact filled_segmentFirst hfirst hroom hsize
    · exact filled_takeLast (by omega) hsize
  | cons next behind ih =>
    have hfirst := hq first List.mem_cons_self
    have hpos : 0 < first.pdu.length := List.length_pos_iff.mpr hfirst.1
    unfold fillDataField
    dsimp only
    rw [if_neg (by omega)]
    by_cases hlong : first.pdu.length > room ∨ first.pdu.length > 2047
    · rw [if_pos hlong]
      exact filled_segmentFirst hfirst hroom hsize
    · rw [if_neg hlong]
      by_cases hlast : room - first.pdu.length ≤ 2
      · rw [if_pos hlast]
        exact filled_takeLast (by omega) hsize
      · rw [if_neg hlast]
        have hbehind : size - next.pdu.length = (dataOf behind).length := by
          rw [hsize, dataOf_cons, List.length_append]
          omega
        have hnext : 0 < room - ((if id % 2 ≠ 0 then 2 else 1) + first.pdu.length) := by
          split_ifs <;> omega
        obtain ⟨pieces, hf⟩ := ih (fun t ht => hq t (List.mem_cons_of_mem _ ht)) hnext hbehind
        exact ⟨_, hf.more (by omega) (by omega)⟩

end Loop
end NetGymSim.Lte

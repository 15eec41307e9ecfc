import NetGymSim.Gma.LinkState
import NetGymSim.Lib.OrderedMap
import NetGymSim.NetworkGym.DataProcessor
import Mathlib.Algebra.Field.Rat

/-!
# The data processor of the GMA network

Measurements of single clients are summed up over the clients of a slice. The entry of a name holds
a list of cells beside a list of values, and the value of a cell is a list of slices beside a list
of numbers. Doubles are rationals; a JSON value of another kind than the code reads, an `at` out of
range and a fatal error end the program.
-/

namespace NetGymSim.Gma
open NetGymSim.Lib NetGymSim.NetworkGym

def networkCid : ℤ := -1

inductive ProcessorFault
  | noCell | noClient | timestamp | outOfRange | wrongType | sizeMismatch
  deriving DecidableEq, Repr

inductive CellValue
  | slices (slice : List ℤ) (value : List ℚ)
  | number (value : ℚ)
  deriving DecidableEq

/-- An element of `m_moreMeasurement`. -/
structure SliceMeasurement where
  source : String
  /-- The cells. -/
  id : List ℤ
  ts : ℕ
  name : String
  value : List CellValue
  deriving DecidableEq

namespace SliceMeasurement

def sameName (e : SliceMeasurement) (m : Measurement ℚ) : Bool :=
  m.source = e.source ∧ m.name = e.name

def create (m : Measurement ℚ) (cellId sliceId : ℤ) (value : List ℚ) : SliceMeasurement where
  source := m.source
  id := [cellId]
  ts := m.ts
  name := m.name
  value := [.slices [sliceId] value]

/-- The loop over the slices; `value` is read only beside the slice that is looked for. -/
def addToSlice (sliceId : ℤ) (v : ℚ) : List ℤ → List ℚ → Except ProcessorFault (List ℚ)
  | [], value => .ok value
  | s :: slice, x :: value =>
      (addToSlice sliceId v slice value).map fun rest => (if s = sliceId then x + v else x) :: rest
  | s :: slice, [] => if s = sliceId then .error .outOfRange else addToSlice sliceId v slice []

/-- Only the first cell is compared, and another one gets its number without a slice. -/
def add (e : SliceMeasurement) (cellId sliceId : ℤ) (v : ℚ) :
    Except ProcessorFault SliceMeasurement :=
  match e.id, e.value with
  | [], _ => .error .outOfRange
  | firstCell :: _, value =>
      if cellId = firstCell then
        match value with
        | .slices slice numbers :: rest =>
            if sliceId ∈ slice then
              (addToSlice sliceId v slice numbers).map fun numbers =>
                { e with value := .slices slice numbers :: rest }
            else .ok { e with value := .slices (slice ++ [sliceId]) (numbers ++ [v]) :: rest }
        | .number _ :: _ => .error .wrongType
        | [] => .error .outOfRange
      else .ok { e with id := e.id ++ [cellId], value := e.value ++ [.number v] }

end SliceMeasurement

structure GmaDataProcessor where
  subscribedMeasurement : List String := []
  measurementStarted : Bool := true
  clientIdToSliceIdMap : List (ℕ × ℤ) := []
  clientIdToCellIdMap : ℕ × ℤ → Option ℕ := fun _ => none
  moreMeasurement : List SliceMeasurement := []

namespace GmaDataProcessor
variable (p : GmaDataProcessor)

def updateCellId (clientId cellId : ℕ) (cid : ℤ) : GmaDataProcessor :=
  { p with
    clientIdToCellIdMap := Function.update p.clientIdToCellIdMap (clientId, cid) (some cellId) }

def updateSliceId (clientId : ℕ) (sliceId : ℤ) : GmaDataProcessor :=
  { p with
    clientIdToSliceIdMap :=
      OrderedMap.upsert (· < ·) clientId (fun _ => sliceId) p.clientIdToSliceIdMap }

def getCellId (clientId : ℕ) (cid : ℤ) : Except ProcessorFault ℤ :=
  if cid = networkCid then .ok 1
  else
    match p.clientIdToCellIdMap (clientId, cid) with
    | none => .error .noCell
    | some cellId => .ok cellId

def getSliceId (clientId : ℕ) : ℤ := (OrderedMap.find p.clientIdToSliceIdMap clientId).getD (-1)

def clientCounter (cid cellId sliceId : ℤ) : Except ProcessorFault ℕ :=
  p.clientIdToSliceIdMap.foldlM (fun counter client =>
    if client.2 = sliceId then do
      let cell ← p.getCellId client.1 cid
      return if cell = cellId then counter + 1 else counter
    else return counter) 0

def subscribed (m : Measurement ℚ) : Bool := m.sourceAndName ∈ p.subscribedMeasurement

def place (m : Measurement ℚ) (cid : ℤ) : Except ProcessorFault (ℤ × ℤ) :=
  match m.id with
  | [] => .error .outOfRange
  | clientId :: _ => do
      let cellId ← p.getCellId clientId cid
      return (cellId, p.getSliceId clientId)

def values (m : Measurement ℚ) (cid : ℤ) (average : Bool) : Except ProcessorFault (List ℚ) :=
  if average then do
    let (cellId, sliceId) ← p.place m cid
    let counter ← p.clientCounter cid cellId sliceId
    if counter = 0 then .error .noClient
    else
      match m.value with
      | [] => .error .outOfRange
      | v :: rest => return v / counter :: rest
  else return m.value

def addTo (m : Measurement ℚ) (cid : ℤ) (value : List ℚ) (e : SliceMeasurement) :
    Except ProcessorFault SliceMeasurement :=
  if e.sameName m then
    if m.ts ≠ e.ts then .error .timestamp
    else do
      let (cellId, sliceId) ← p.place m cid
      match value with
      | [] => .error .outOfRange
      | v :: _ => e.add cellId sliceId v
  else return e

def appendEntry (cid : ℤ) (average : Bool) (m : Measurement ℚ) :
    Except ProcessorFault GmaDataProcessor :=
  if p.subscribed m then do
    let value ← p.values m cid average
    if p.moreMeasurement.any fun e => e.sameName m then
      let moreMeasurement ← p.moreMeasurement.mapM (p.addTo m cid value)
      return { p with moreMeasurement }
    else
      let (cellId, sliceId) ← p.place m cid
      return { p with
        moreMeasurement := p.moreMeasurement ++ [.create m cellId sliceId value] }
  else return p

def appendSliceMeasurement (measurement : NetworkStats ℚ) (cid : ℤ) (average : Bool) :
    Except ProcessorFault GmaDataProcessor :=
  if !p.measurementStarted then return p
  else measurement.getJson.foldlM (fun p m => p.appendEntry cid average m) p

end GmaDataProcessor
end NetGymSim.Gma

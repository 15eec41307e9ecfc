import Mathlib.Data.List.Basic
import Mathlib.Tactic.Common

/-!
# The data processor

Modules append measurements, of which the subscribed ones are kept in a batch. At an exchange
the batch is merged into one list: the first measurement of the batch is the start, and each
entry of the others either joins an entry with the same source and name or is put behind the
list when its `source::name` is new. The values are JSON of any kind.
-/

namespace NetGymSim.NetworkGym

structure Measurement (V : Type) where
  source : String
  id : List ℕ
  ts : ℕ
  name : String
  value : List V
  deriving DecidableEq, Repr

namespace Measurement
variable {V : Type}

def sourceAndName (m : Measurement V) : String := m.source ++ "::" ++ m.name

def sortedIndex (id : ℕ) : List ℕ → ℕ
  | [] => 0
  | x :: ids => if x > id then 0 else sortedIndex id ids + 1

def insertSorted (it j : Measurement V) : Option (Measurement V) := do
  let id ← j.id.head?
  let value ← j.value.head?
  let index := sortedIndex id it.id
  some { it with id := it.id.insertIdx index id, value := it.value.insertIdx index value }

/-- The loop over the network statistics for an entry `j`; a fatal error is `none`. -/
def mergeInto (nameList : List String) (j : Measurement V) :
    List (Measurement V) → Option (List (Measurement V) × List String)
  | [] => some ([], nameList)
  | it :: rest =>
      if it.source = j.source ∧ it.name = j.name then
        if it.ts ≠ j.ts then none
        else (it.insertSorted j).map fun merged => (merged :: rest, nameList)
      else if j.sourceAndName ∉ nameList then
        some (it :: rest ++ [j], nameList ++ [j.sourceAndName])
      else (mergeInto nameList j rest).map fun (rest, names) => (it :: rest, names)

def namesOf (networkStats : List (Measurement V)) : List String :=
  networkStats.foldl
    (fun names it => if it.sourceAndName ∈ names then names else names ++ [it.sourceAndName]) []

def mergeAll (first : List (Measurement V)) (others : List (Measurement V)) :
    Option (List (Measurement V) × List String) :=
  others.foldlM (fun (networkStats, nameList) j => mergeInto nameList j networkStats)
    (first, namesOf first)

def mergeBatch (batch : List (List (Measurement V))) : Option (List (Measurement V)) :=
  (mergeAll (batch.headD []) batch.tail.flatten).map Prod.fst

end Measurement

structure NetworkStats (V : Type) where
  source : String
  id : ℕ
  ts : ℕ
  data : List (Measurement V) := []

namespace NetworkStats
variable {V : Type}

def getJson (s : NetworkStats V) : List (Measurement V) := s.data

def append (s : NetworkStats V) (name : String) (value : V) : NetworkStats V :=
  { s with data := s.data ++
      [{ source := s.source, id := [s.id], ts := s.ts, name, value := [value] }] }

/-- A new object after the calls of `Append`. -/
def report (source : String) (id ts : ℕ) (metrics : List (String × V)) : NetworkStats V :=
  metrics.foldl (fun s metric => s.append metric.1 metric.2) { source, id, ts }

end NetworkStats

structure DataProcessor (V : Type) where
  subscribedMeasurement : List String
  measurementStarted : Bool := false
  measurementBatch : List (List (Measurement V)) := []
  /-- An exchange is scheduled and has not run. -/
  exchangePending : Bool := false
  waitCounter : ℕ := 0
  totalSteps : ℕ

namespace DataProcessor
variable {V : Type}

def startMeasurement (p : DataProcessor V) : DataProcessor V :=
  { p with measurementStarted := true }

def subscribed (p : DataProcessor V) (m : Measurement V) : Bool :=
  m.sourceAndName ∈ p.subscribedMeasurement

def appendMeasurement (p : DataProcessor V) (measurement : NetworkStats V) : DataProcessor V :=
  if !p.measurementStarted then p
  else { p with
    measurementBatch := p.measurementBatch ++ [measurement.getJson.filter p.subscribed]
    exchangePending := true }

/-- The message that is sent, when one is, and the processor after the exchange. -/
def exchangeMeasurementAndAction (p : DataProcessor V) :
    Option (Option (List (Measurement V)) × DataProcessor V) :=
  let p := { p with exchangePending := false }
  if !p.measurementStarted then some (none, p)
  else if p.measurementBatch.length = 0 then some (none, p)
  else (Measurement.mergeBatch p.measurementBatch).map fun networkStats =>
    let p := { p with measurementBatch := [] }
    (some networkStats,
      if p.waitCounter + 1 ≥ p.totalSteps then { p with measurementStarted := false }
      else { p with waitCounter := p.waitCounter + 1 })

end DataProcessor
end NetGymSim.NetworkGym

import Mathlib.Data.UInt
import Mathlib.Data.List.Basic

/-!
# The repositories of OLSR

The tuples of `olsr-repositories.h` with the fields that the MPR computation and the
processing of TC messages read, and the lookups of `OlsrState` on them.
-/

namespace NetGymSim.Olsr

abbrev Ipv4Address := UInt32

abbrev Willingness := UInt8

namespace Willingness

def never : Willingness := 0
def always : Willingness := 7

end Willingness

inductive NeighborTuple.Status
  | notSym | sym
  deriving DecidableEq, Repr

structure NeighborTuple where
  neighborMainAddr : Ipv4Address
  status : NeighborTuple.Status
  willingness : Willingness
  deriving DecidableEq, Repr

structure TwoHopNeighborTuple where
  neighborMainAddr : Ipv4Address
  twoHopNeighborAddr : Ipv4Address
  deriving DecidableEq, Repr

structure LinkTuple where
  neighborIfaceAddr : Ipv4Address
  symTime : ℕ
  deriving DecidableEq, Repr

structure TopologyTuple where
  destAddr : Ipv4Address
  lastAddr : Ipv4Address
  sequenceNumber : UInt16
  expirationTime : ℕ
  deriving DecidableEq, Repr

def findSymLinkTuple (linkSet : List LinkTuple) (ifaceAddr : Ipv4Address) (now : ℕ) :
    Option LinkTuple :=
  (linkSet.find? fun t => t.neighborIfaceAddr = ifaceAddr).filter fun t => now < t.symTime

def findNeighborTuple (neighborSet : List NeighborTuple) (mainAddr : Ipv4Address) :
    Option NeighborTuple :=
  neighborSet.find? fun t => t.neighborMainAddr = mainAddr

section TopologySet

def findTopologyTuple (set : List TopologyTuple) (destAddr lastAddr : Ipv4Address) :
    Option TopologyTuple :=
  set.find? fun t => t.destAddr = destAddr ∧ t.lastAddr = lastAddr

def findNewerTopologyTuple (set : List TopologyTuple) (lastAddr : Ipv4Address) (ansn : UInt16) :
    Option TopologyTuple :=
  set.find? fun t => t.lastAddr = lastAddr ∧ ansn < t.sequenceNumber

def eraseTopologyTuple (set : List TopologyTuple) (tuple : TopologyTuple) : List TopologyTuple :=
  set.eraseP fun t => t.destAddr = tuple.destAddr ∧ t.lastAddr = tuple.lastAddr ∧
    t.sequenceNumber = tuple.sequenceNumber

def eraseOlderTopologyTuples (set : List TopologyTuple) (lastAddr : Ipv4Address) (ansn : UInt16) :
    List TopologyTuple :=
  set.filter fun t => ¬ (t.lastAddr = lastAddr ∧ t.sequenceNumber < ansn)

def insertTopologyTuple (set : List TopologyTuple) (tuple : TopologyTuple) : List TopologyTuple :=
  set ++ [tuple]

def setExpirationTime (destAddr lastAddr : Ipv4Address) (time : ℕ) :
    List TopologyTuple → List TopologyTuple
  | [] => []
  | t :: rest =>
    if t.destAddr = destAddr ∧ t.lastAddr = lastAddr then { t with expirationTime := time } :: rest
    else t :: setExpirationTime destAddr lastAddr time rest

end TopologySet
end NetGymSim.Olsr

import NetGymSim.Lib.SharedChains

/-!
# Packet tag lists with copy on write

The tags of a packet are a chain of `TagData`, whose tail it may share with other packets. A tag
is removed or replaced in place while no other list can see it. Otherwise the shared part of the
chain before it is copied first, one cell after the other.
-/

namespace NetGymSim.Network
open NetGymSim.Lib

structure Tag where
  tid : ℕ
  data : List UInt8
deriving DecidableEq

abbrev TagData := Cell Tag

abbrev PacketTagLists := SharedChains Tag

/-- Where `COWTraverse` stops: at the end, at the tag before any merge, or at the first merge; with
the link that leads there. -/
inductive TagSearch
  | missing
  | found (prevNext : Link) (cur : ℕ)
  | merge (prevNext : Link) (cur : ℕ)

namespace PacketTagLists

def start : PacketTagLists := ⟨[], [], []⟩

/-- The first cell from `cur` on with this type, the fuel being for the cells on the way; missing
when a cell is not live. -/
def find (s : PacketTagLists) (tid : ℕ) : ℕ → Option ℕ → Option (Option TagData)
  | _, none => some none
  | 0, some _ => none
  | fuel + 1, some cur =>
      match s.cell cur with
      | none => none
      | some data => if data.value.tid = tid then some (some data) else find s tid fuel data.next

def search (s : PacketTagLists) (tid : ℕ) : ℕ → Link → Option ℕ → Option TagSearch
  | _, _, none => some .missing
  | 0, _, some _ => none
  | fuel + 1, prevNext, some cur =>
      match s.cell cur with
      | none => none
      | some data =>
          if 1 < data.count then some (.merge prevNext cur)
          else if data.value.tid = tid then some (.found prevNext cur)
          else search s tid fuel (.next cur) data.next

def copyTo (tid : ℕ) : ℕ → PacketTagLists → Link → ℕ → Option (PacketTagLists × Link × ℕ)
  | 0, _, _, _ => none
  | fuel + 1, s, prevNext, cur =>
      match s.cell cur with
      | none => none
      | some data =>
          if data.value.tid = tid then some (s, prevNext, cur)
          else if data.count ≤ 1 then none
          else
            match data.next with
            | none => none
            | some next => do
                let s ← s.decCount cur
                let (copy, s) := s.alloc { data with count := 1 }
                let s ← s.incCount next
                let s ← s.setLink prevNext (some copy)
                copyTo tid fuel s (.next copy) next

/-- `tag->count++` for the cell a copied link points to, if any. -/
def share (s : PacketTagLists) : Option ℕ → Option PacketTagLists
  | none => some s
  | some next => s.incCount next

/-- A `COWWriter` takes `preMerge`, `cur` and `prevNext`, and gives the data the tag has then. -/
abbrev COWWriter := PacketTagLists → Bool → ℕ → Link → Option (PacketTagLists × List UInt8)

def removeWriter : COWWriter := fun s preMerge cur prevNext => do
  let data ← s.cell cur
  let s ← s.setLink prevNext data.next
  if preMerge then
    let s ← s.free cur
    pure (s, data.value.data)
  else
    let s ← s.decCount cur
    let s ← share s data.next
    pure (s, data.value.data)

/-- `Serialize` into a buffer with these bytes, which must be long enough. -/
def overwrite (old new : List UInt8) : Option (List UInt8) :=
  if new.length ≤ old.length then some (new ++ old.drop new.length) else none

def replaceWriter (tag : Tag) : COWWriter := fun s preMerge cur prevNext => do
  let data ← s.cell cur
  if preMerge then
    let bytes ← overwrite data.value.data tag.data
    pure (s.setCell cur (some { data with value := ⟨data.value.tid, bytes⟩ }), tag.data)
  else
    let s ← s.decCount cur
    let (copy, s) := s.alloc ⟨data.next, 1, tag⟩
    let s ← share s data.next
    let s ← s.setLink prevNext (some copy)
    pure (s, tag.data)

/-- The data of the tag is missing when the type is not found. -/
def cowTraverse (s : PacketTagLists) (i tid : ℕ) (writer : COWWriter) :
    Option (PacketTagLists × Option (List UInt8)) := do
  let head ← s.heads[i]?
  match ← search s tid s.cells.length (.head i) head with
  | .missing => pure (s, none)
  | .found prevNext cur =>
      let (s, data) ← writer s true cur prevNext
      pure (s, some data)
  | .merge prevNext cur =>
      match ← find s tid s.cells.length (some cur) with
      | none => pure (s, none)
      | some _ =>
          let (s, prevNext, cur) ← copyTo tid s.cells.length s prevNext cur
          let merge ← s.cell cur
          if merge.count ≤ 1 then none
          else
            let (s, data) ← writer s false cur prevNext
            pure (s, some data)

def remove (s : PacketTagLists) (i tid : ℕ) : Option (PacketTagLists × Option (List UInt8)) :=
  cowTraverse s i tid removeWriter

def peek (s : PacketTagLists) (i tid : ℕ) : Option (Option (List UInt8)) := do
  let head ← s.heads[i]?
  let found ← find s tid s.cells.length head
  pure (found.map fun data => data.value.data)

/-- It is missing when a tag of the type is there already, which an assertion rules out. -/
def add (s : PacketTagLists) (i : ℕ) (tag : Tag) : Option PacketTagLists := do
  let head ← s.heads[i]?
  match ← find s tag.tid s.cells.length head with
  | some _ => none
  | none =>
      let (new, s) := s.alloc ⟨head, 1, tag⟩
      s.setLink (.head i) (some new)

def replace (s : PacketTagLists) (i : ℕ) (tag : Tag) :
    Option (PacketTagLists × Option (List UInt8)) := do
  let (s, found) ← cowTraverse s i tag.tid (replaceWriter tag)
  match found with
  | some data => pure (s, some data)
  | none =>
      let s ← add s i tag
      pure (s, none)

/-- `free` of the cell before, if there is one. -/
def freePrev (s : PacketTagLists) : Option ℕ → Option PacketTagLists
  | none => some s
  | some prev => s.free prev

def removeAllLoop : ℕ → PacketTagLists → Option ℕ → Option ℕ → Option PacketTagLists
  | _, s, prev, none => freePrev s prev
  | 0, _, _, some _ => none
  | fuel + 1, s, prev, some cur => do
      let s ← s.decCount cur
      let data ← s.cell cur
      if 0 < data.count then freePrev s prev
      else
        let s ← freePrev s prev
        removeAllLoop fuel s (some cur) data.next

def removeAll (s : PacketTagLists) (i : ℕ) : Option PacketTagLists := do
  let head ← s.heads[i]?
  let s ← removeAllLoop s.cells.length s none head
  s.setLink (.head i) none

def construct (s : PacketTagLists) : PacketTagLists := { s with heads := s.heads ++ [none] }

def copy (s : PacketTagLists) (o : ℕ) : Option PacketTagLists := do
  let next ← s.heads[o]?
  share { s with heads := s.heads ++ [next] } next

/-- `operator=`; nothing happens when both lists begin at the same cell. -/
def assign (s : PacketTagLists) (i o : ℕ) : Option PacketTagLists := do
  let head ← s.heads[i]?
  let next ← s.heads[o]?
  if head = next then pure s
  else
    let s ← removeAll s i
    let next ← s.heads[o]?
    let s ← s.setLink (.head i) next
    share s next

end PacketTagLists
end NetGymSim.Network

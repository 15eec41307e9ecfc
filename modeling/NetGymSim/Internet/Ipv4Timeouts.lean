import NetGymSim.Internet.Ipv4Reassembly
import NetGymSim.Lib.Machine

/-!
# The timers of incomplete datagrams

Each set of fragments has an entry in a list by deadline, and one event serves the whole list. A
number stands for the iterator of an entry. Time is a natural number; the event fires at its time,
in any order with what else happens then. The ICMP message for a dropped set is left out.
-/

namespace NetGymSim.Internet.Ipv4L3Protocol
open Lib Fragments
variable {α : Type*}

namespace Fragments

/-- The loop of `GetPartialPacket`: no result when a fragment is to lose more than it holds. -/
def partialLoop : List (List α × ℕ) → List α → Option (List α)
  | [], p => some p
  | e :: rest, p =>
    let lastEndOffset := p.length % 65536
    if e.2 < lastEndOffset then
      let newStart := lastEndOffset - e.2
      if newStart ≤ e.1.length then partialLoop rest (p ++ e.1.drop newStart) else none
    else if lastEndOffset = e.2 then partialLoop rest (p ++ e.1)
    else partialLoop rest p

def getPartialPacket (f : Fragments α) : Option (List α) :=
  match f.fragments with
  | [] => none
  | e :: _ => if 0 < e.2 then some [] else partialLoop f.fragments []

end Fragments

/-- `created` is the time at which the set was begun; no operation reads it. -/
structure TimeoutEntry where
  iter : ℕ
  created : ℕ
  deadline : ℕ
  key : ℕ × ℕ
  header : Ipv4Header
  iif : ℕ

structure FragmentSet (α : Type*) where
  fragments : Fragments α
  timeoutIter : ℕ

/-- A set that `HandleFragmentsTimeout` reports, with the time of the report. -/
structure Drop (α : Type*) where
  entry : TimeoutEntry
  time : ℕ
  fragments : Fragments α
  packet : Option (List α)

/-- `pending` holds the times of the scheduled `HandleTimeout` events. `completed` and `dropped`
say what became of the sets, by their iterators. -/
structure Reassembler (α : Type*) where
  now : ℕ
  expiration : ℕ
  fragments : ℕ × ℕ → Option (FragmentSet α)
  timeoutEventList : List TimeoutEntry
  nextIter : ℕ
  pending : List ℕ
  completed : List ℕ := []
  dropped : List (Drop α) := []

namespace Reassembler

def new (now expiration : ℕ) : Reassembler α where
  now := now
  expiration := expiration
  fragments := fun _ => none
  timeoutEventList := []
  nextIter := 0
  pending := []

def setTimeout (s : Reassembler α) (key : ℕ × ℕ) (ipHeader : Ipv4Header) (iif : ℕ) :
    Reassembler α :=
  let now := s.now + s.expiration
  { s with
    fragments := Function.update s.fragments key (some ⟨Fragments.empty, s.nextIter⟩)
    timeoutEventList := s.timeoutEventList ++ [⟨s.nextIter, s.now, now, key, ipHeader, iif⟩]
    nextIter := s.nextIter + 1
    pending := if s.timeoutEventList = [] then now :: s.pending else s.pending }

def eraseTimeout (s : Reassembler α) (iter : ℕ) : Option (Reassembler α) :=
  if s.timeoutEventList.any fun e => e.iter = iter then
    some { s with timeoutEventList := s.timeoutEventList.eraseP fun e => e.iter = iter }
  else none

def addToSet (s : Reassembler α) (set : FragmentSet α) (d : Datagram α) :
    Option (Reassembler α × Option (List α)) :=
  let key := d.header.key
  let fragments := set.fragments.addFragment d.payload d.header.fragmentOffset
    !d.header.isLastFragment
  if fragments.isEntire then
    (s.eraseTimeout set.timeoutIter).map fun s =>
      ({ s with
          fragments := Function.update s.fragments key none
          completed := s.completed ++ [set.timeoutIter] }, some fragments.getPacket)
  else
    some ({ s with
      fragments := Function.update s.fragments key (some { set with fragments := fragments }) },
      none)

def processFragment (s : Reassembler α) (d : Datagram α) (iif : ℕ) :
    Option (Reassembler α × Option (List α)) :=
  match s.fragments d.header.key with
  | none =>
      (s.setTimeout d.header.key d.header iif).addToSet ⟨Fragments.empty, s.nextIter⟩ d
  | some set => s.addToSet set d

/-- There is no result when no set is kept under the key. -/
def handleFragmentsTimeout (s : Reassembler α) (e : TimeoutEntry) : Option (Reassembler α) :=
  (s.fragments e.key).map fun set =>
    { s with
      fragments := Function.update s.fragments e.key none
      dropped := s.dropped ++ [⟨e, s.now, set.fragments, set.fragments.getPartialPacket⟩] }

/-- The loop of `HandleTimeout`, over the entries from the front of the list on. -/
def expireLoop : List TimeoutEntry → Reassembler α → Option (Reassembler α)
  | [], s => some { s with timeoutEventList := [] }
  | e :: rest, s =>
      if e.deadline = s.now then s.handleFragmentsTimeout e >>= expireLoop rest
      else some { s with timeoutEventList := e :: rest }

/-- An event cannot be scheduled in the past. -/
def handleTimeout (s : Reassembler α) : Option (Reassembler α) := do
  let s ← expireLoop s.timeoutEventList s
  match s.timeoutEventList with
  | [] => some s
  | e :: _ =>
      if s.now ≤ e.deadline then some { s with pending := e.deadline :: s.pending } else none

end Reassembler

/-! ### Runs -/

/-- A fragment that arrives now, the passing of time, and the firing of an event. -/
inductive TimerEvent (α : Type*)
  | arrive (d : Datagram α) (iif : ℕ)
  | tick (t : ℕ)
  | fire

namespace Reassembler

def step (s : Reassembler α) : TimerEvent α → Option (Reassembler α)
  | .arrive d iif => (s.processFragment d iif).map Prod.fst
  | .tick t => some { s with now := t }
  | .fire => handleTimeout { s with pending := s.pending.erase s.now }

/-- A fragment ends where a datagram may end. Time passes no event that has not fired. -/
def Enabled (s : Reassembler α) : TimerEvent α → Prop
  | .arrive d _ => d.header.fragmentOffset + d.payload.length < 65536
  | .tick t => s.now ≤ t ∧ ∀ p ∈ s.pending, t ≤ p
  | .fire => s.now ∈ s.pending

def machine : Machine (Reassembler α) (TimerEvent α) :=
  ⟨Enabled, fun s e => (s.step e).getD s⟩

instance (s : Reassembler α) : (e : TimerEvent α) → Decidable (machine.enabled s e)
  | .arrive d _ => inferInstanceAs (Decidable (d.header.fragmentOffset + d.payload.length < 65536))
  | .tick t => inferInstanceAs (Decidable (s.now ≤ t ∧ ∀ p ∈ s.pending, t ≤ p))
  | .fire => inferInstanceAs (Decidable (s.now ∈ s.pending))

end Reassembler
end NetGymSim.Internet.Ipv4L3Protocol

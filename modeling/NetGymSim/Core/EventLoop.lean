import NetGymSim.Core.Scheduler
import NetGymSim.Lib.Word

/-!
# The event loop of `DefaultSimulatorImpl`

The scheduler is any implementation of its base class. What the events do while they run is
any sequence of operations, with the ids that were handed out. Times are the 64-bit words that
the keys hold. `issued`, `invoked` and `withdrawn` only serve the statements: the events in
the order in which they were scheduled, those that were invoked, and those for which `Cancel`
or `Remove` was called before that.
-/

namespace NetGymSim.Core
open NetGymSim.Lib

/-- `m_cancel` of the event implementations stands in `cancelled`. -/
structure DefaultSimulator (σ : Type*) where
  events : σ
  currentTs : ℕ := 0
  currentUid : ℕ := 0
  currentContext : ℕ := 4294967295
  uid : ℕ := 4
  unscheduledEvents : ℤ := 0
  eventCount : ℕ := 0
  stop : Bool := false
  cancelled : ℕ → Bool := fun _ => false

namespace DefaultSimulator
variable {σ : Type*} (I : SchedulerImpl σ)

def schedule (delay impl : ℕ) (s : DefaultSimulator σ) : Event × DefaultSimulator σ :=
  let ev : Event :=
    ⟨impl, { ts := (delay + s.currentTs) % 2 ^ 64, uid := s.uid, context := s.currentContext }⟩
  (ev, { s with
    uid := Lib.add32 s.uid 1
    unscheduledEvents := int32 (s.unscheduledEvents + 1)
    events := I.insert s.events ev })

/-- The uid 2 marks destroy events, of which there are none here. -/
def isExpired (s : DefaultSimulator σ) (id : Event) : Bool :=
  if id.key.uid = 2 then true
  else decide (id.key.ts < s.currentTs) ||
    (decide (id.key.ts = s.currentTs) && decide (id.key.uid ≤ s.currentUid)) ||
    s.cancelled id.impl

def cancelImpl (s : DefaultSimulator σ) (impl : ℕ) : DefaultSimulator σ :=
  { s with cancelled := Function.update s.cancelled impl true }

def cancel (s : DefaultSimulator σ) (id : Event) : DefaultSimulator σ :=
  if s.isExpired id then s else s.cancelImpl id.impl

def remove (s : DefaultSimulator σ) (id : Event) : DefaultSimulator σ :=
  if id.key.uid = 2 then s
  else if s.isExpired id then s
  else { s.cancelImpl id.impl with
    events := I.remove s.events id
    unscheduledEvents := int32 (s.unscheduledEvents - 1) }

/-- `Invoke` calls `Notify` unless the event was cancelled. -/
def processOneEvent (s : DefaultSimulator σ) : Event × DefaultSimulator σ :=
  let r := I.removeNext s.events
  (r.1, { s with
    events := r.2
    unscheduledEvents := int32 (s.unscheduledEvents - 1)
    eventCount := s.eventCount + 1
    currentTs := r.1.key.ts
    currentContext := r.1.key.context
    currentUid := r.1.key.uid })

end DefaultSimulator

inductive SimulatorOp
  /-- `ScheduleNow` has the delay zero. -/
  | schedule (delay : ℕ)
  | cancel (id : Event)
  | remove (id : Event)
  | stop
  /-- The start of `Run`. -/
  | run
  | processOneEvent
  deriving DecidableEq

structure SimulatorRun (σ : Type*) where
  sim : DefaultSimulator σ
  issued : List Event := []
  invoked : List Event := []
  withdrawn : List Event := []

namespace SimulatorRun
variable {σ : Type*} (I : SchedulerImpl σ)

def withdraw (r : SimulatorRun σ) (id : Event) : List Event :=
  if id ∈ r.invoked then r.withdrawn else id :: r.withdrawn

def next (r : SimulatorRun σ) : SimulatorOp → SimulatorRun σ
  | .schedule delay =>
      let (id, sim) := r.sim.schedule I delay r.issued.length
      { r with sim, issued := r.issued ++ [id] }
  | .cancel id => { r with sim := r.sim.cancel id, withdrawn := r.withdraw id }
  | .remove id => { r with sim := r.sim.remove I id, withdrawn := r.withdraw id }
  | .stop => { r with sim := { r.sim with stop := true } }
  | .run => { r with sim := { r.sim with stop := false } }
  | .processOneEvent =>
      let (ev, sim) := r.sim.processOneEvent I
      { r with sim, invoked := if sim.cancelled ev.impl then r.invoked else r.invoked ++ [ev] }

/-- A delay is not negative, ids come from `Schedule`, and `Run` goes on while there are events
and `Stop` was not called. -/
def enabled (r : SimulatorRun σ) : SimulatorOp → Prop
  | .schedule delay => delay < 2 ^ 63
  | .cancel id | .remove id => id ∈ r.issued
  | .stop | .run => True
  | .processOneEvent => I.isEmpty r.sim.events = false ∧ r.sim.stop = false

def machine : Machine (SimulatorRun σ) SimulatorOp := ⟨enabled I, next I⟩

instance (r : SimulatorRun σ) :
    (op : SimulatorOp) → Decidable ((machine I).enabled r op)
  | .schedule delay => inferInstanceAs (Decidable (delay < 2 ^ 63))
  | .cancel id | .remove id => inferInstanceAs (Decidable (id ∈ r.issued))
  | .stop | .run => inferInstanceAs (Decidable True)
  | .processOneEvent =>
      inferInstanceAs (Decidable (I.isEmpty r.sim.events = false ∧ r.sim.stop = false))

structure Sound (r : SimulatorRun σ) : Prop where
  order : r.invoked.Pairwise fun a b => a.key.ts < b.key.ts ∨
    a.key.ts = b.key.ts ∧ [a, b].Sublist r.issued
  scheduled : ∀ e ∈ r.invoked, e ∈ r.issued
  once : r.invoked.Nodup
  never : ∀ e ∈ r.withdrawn, e ∉ r.invoked
  waiting : ∀ e ∈ r.issued, e ∉ r.invoked → e ∉ r.withdrawn →
    e ∈ I.contents r.sim.events ∧ r.sim.currentTs ≤ e.key.ts
  finished : I.isEmpty r.sim.events → ∀ e ∈ r.issued, e ∈ r.invoked ∨ e ∈ r.withdrawn
  expired : ∀ e ∈ r.issued, r.sim.isExpired e ↔ e ∈ r.invoked ∨ e ∈ r.withdrawn

def Counted (r : SimulatorRun σ) : Prop :=
  r.sim.unscheduledEvents = (I.contents r.sim.events).length

/-- The scheduler keeps the promise of its base class in every run. -/
def Lawful (start : σ) : Prop :=
  ∀ ops s, I.machine.Reaches { sched := start } ops s → I.Serves s

/-- No uid is handed out twice, the first one being 4, and no event time overflows. -/
def withinLimits (r : SimulatorRun σ) : SimulatorOp → Prop
  | .schedule delay => r.issued.length < 4294967292 ∧ r.sim.currentTs + delay < 2 ^ 64
  | _ => True

instance (r : SimulatorRun σ) : (op : SimulatorOp) → Decidable (withinLimits r op)
  | .schedule delay => inferInstanceAs
      (Decidable (r.issued.length < 4294967292 ∧ r.sim.currentTs + delay < 2 ^ 64))
  | .cancel _ | .remove _ | .stop | .run | .processOneEvent => inferInstanceAs (Decidable True)

end SimulatorRun
end NetGymSim.Core

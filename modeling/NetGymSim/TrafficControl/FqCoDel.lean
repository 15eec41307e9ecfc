import NetGymSim.Gma.FqPppRounds
import NetGymSim.TrafficControl.CoDel

/-!
# `FqCoDelQueueDisc`

The flow queues are CoDel discs; the classes are found and scheduled as those of the FqPpp disc
are. `view` leaves only what that disc has, and shows a turn of one as a turn of the other in
which the packets that CoDel drops are those the inner disc drops there.
-/

namespace NetGymSim.TrafficControl
open NetGymSim.Lib
open NetGymSim.Gma (FqPppConfig FlowStatus FqPppFlow FqPppItem FqPpp)

/-- The attributes as `CheckConfig` accepts them; `maxSize` is in packets. -/
structure FqCoDelConfig extends FqPppConfig where
  maxSize : ℕ := 10240
  dropBatchSize : ℕ := 64
  interval : ℕ := 100000000
  target : ℕ := 5000000
  useEcn : Bool := true
  useL4s : Bool := false
  ceThreshold : ℕ := 2 ^ 63 - 1
  quantum_lt : quantum < 4294967296
  ceThreshold_set : useL4s = true → ceThreshold ≠ 2 ^ 63 - 1

/-- What the flow queues are created with; they keep their other defaults. -/
def FqCoDelConfig.codel (config : FqCoDelConfig) : CoDelConfig where
  maxSize := config.maxSize
  interval := config.interval
  target := config.target
  useEcn := config.useEcn
  useL4s := config.useL4s
  ceThreshold := config.ceThreshold

structure FqCoDelFlow where
  deficit : ℤ := 0
  status : FlowStatus := .inactive
  queueDisc : CoDel := {}

/-- A sum that is no `int32_t` is undefined. -/
def FqCoDelFlow.increaseDeficit (flow : FqCoDelFlow) (deficit : ℤ) : Option FqCoDelFlow :=
  let sum := flow.deficit + int32 deficit
  if int32 sum = sum then some { flow with deficit := sum } else none

/-- `flowsIndices` has the class of each slot that was created and `classes` these slots in the
order of their creation. `departures` are the packets that `DoDequeue` returned, with their slots,
oldest first. -/
structure FqCoDel where
  flowsIndices : ℕ → Option FqCoDelFlow := fun _ => none
  classes : List ℕ := []
  tags : ℕ → Option ℕ := fun _ => none
  newFlows : List ℕ := []
  oldFlows : List ℕ := []
  nPackets : ℕ := 0
  now : ℕ := 0
  departures : List (ℕ × QueueDiscItem) := []

namespace FqCoDel

def flow (s : FqCoDel) (h : ℕ) : FqCoDelFlow := (s.flowsIndices h).getD {}

def queue (s : FqCoDel) (h : ℕ) : List QueueDiscItem := (s.flow h).queueDisc.queue

def setFlow (s : FqCoDel) (h : ℕ) (flow : FqCoDelFlow) : FqCoDel :=
  { s with flowsIndices := fun i => if i = h then some flow else s.flowsIndices i }

/-- The disc is told of each packet that enters or leaves the flow queue. -/
def setQueueDisc (s : FqCoDel) (h : ℕ) (queueDisc : CoDel) : FqCoDel :=
  { s.setFlow h { s.flow h with queueDisc } with
    nPackets := s.nPackets + queueDisc.nPackets - (s.flow h).queueDisc.nPackets }

def usable (s : FqCoDel) (flowHash i : ℕ) : Bool :=
  match s.flowsIndices i with
  | none => true
  | some flow => s.tags i = some flowHash || flow.status = .inactive

def setAssociativeHash (config : FqCoDelConfig) (s : FqCoDel) (flowHash : ℕ) : ℕ × FqCoDel :=
  let h := ((config.slots flowHash).find? (s.usable flowHash)).getD (config.outerHash flowHash)
  (h, { s with tags := fun i => if i = h then some flowHash else s.tags i })

def classify (config : FqCoDelConfig) (s : FqCoDel) (flowHash : ℕ) : ℕ × FqCoDel :=
  if config.enableSetAssociativeHash then s.setAssociativeHash config flowHash
  else (flowHash % config.flows, s)

def create (s : FqCoDel) (h : ℕ) : FqCoDel :=
  match s.flowsIndices h with
  | none => { s.setFlow h {} with classes := s.classes ++ [h] }
  | some _ => s

/-- An inactive class starts anew at the end of `m_newFlows`. -/
def activate (config : FqCoDelConfig) (s : FqCoDel) (h : ℕ) : FqCoDel :=
  let flow := s.flow h
  if flow.status = .inactive then
    { s.setFlow h { flow with status := .newFlow, deficit := int32 config.quantum } with
      newFlows := s.newFlows ++ [h] }
  else s

/-- `flow->GetQueueDisc()->Enqueue(item)`. -/
def append (config : FqCoDelConfig) (s : FqCoDel) (h : ℕ) (item : QueueDiscItem) : FqCoDel :=
  s.setQueueDisc h
    ((s.flow h).queueDisc.enqueue config.codel { item with timeStamp := s.now }).2

def fattest (s : FqCoDel) : ℕ × ℕ :=
  s.classes.foldl (fun best h =>
    let bytes := (s.flow h).queueDisc.nBytes
    if bytes > best.1 then (bytes, h) else best) (0, s.classes.headD 0)

/-- The loop of `FqCoDelDrop`. It goes through the packets of the queue and asks a packet for its
size also when there is none. -/
def dropFront (config : FqCoDelConfig) (threshold : ℕ) : ℕ → ℕ → ℕ → CoDel → Option CoDel
  | 0, _, _, _ => none
  | fuel + 1, count, len, qd =>
      match qd.pop with
      | (none, _) => none
      | (some item, qd) =>
          let len := add32 len item.size
          if count + 1 < config.dropBatchSize ∧ len < threshold then
            dropFront config threshold fuel (count + 1) len qd
          else some qd

def fqCoDelDrop (config : FqCoDelConfig) (s : FqCoDel) : Option FqCoDel :=
  let (maxBacklog, index) := s.fattest
  let threshold := maxBacklog >>> 1
  let qd := (s.flow index).queueDisc
  (dropFront config threshold (qd.queue.length + 1) 0 0 qd).map (s.setQueueDisc index)

def place (config : FqCoDelConfig) (s : FqCoDel) (flowHash : ℕ) (item : QueueDiscItem) : FqCoDel :=
  let (h, s) := s.classify config flowHash
  ((s.create h).activate config h).append config h item

/-- `flowHash` is missing when no packet filter classifies the packet. -/
def doEnqueue (config : FqCoDelConfig) (s : FqCoDel) (flowHash : Option ℕ)
    (item : QueueDiscItem) : Option FqCoDel :=
  match flowHash with
  | none => some s
  | some flowHash =>
      let s := s.place config flowHash item
      if s.nPackets > config.maxSize then s.fqCoDelDrop config else some s

def retire (s : FqCoDel) (h : ℕ) (qd : CoDel) (newFlows : Bool) : FqCoDel :=
  let s := s.setQueueDisc h qd
  if newFlows then
    { s.setFlow h { s.flow h with status := .oldFlow } with
      oldFlows := s.oldFlows ++ [h], newFlows := s.newFlows.tail }
  else { s.setFlow h { s.flow h with status := .inactive } with oldFlows := s.oldFlows.tail }

/-- `item->GetSize() * -1` is a `uint32_t` that becomes an `int32_t`. -/
def send (s : FqCoDel) (h : ℕ) (qd : CoDel) (item : QueueDiscItem) : Option FqCoDel :=
  let s := s.setQueueDisc h qd
  ((s.flow h).increaseDeficit (-item.size)).map fun flow =>
    { s.setFlow h flow with departures := s.departures ++ [(h, item)] }

def serve (config : FqCoDelConfig) (s : FqCoDel) (h : ℕ) (newFlows : Bool) :
    Option (Turn FqCoDel) :=
  match (s.flow h).queueDisc.doDequeue config.codel s.now with
  | none => none
  | some (none, qd) => some (.again (s.retire h qd newFlows))
  | some (some item, qd) => (s.send h qd item).map .done

/-- One turn of the loops of `DoDequeue`: the front of `m_newFlows`, or of `m_oldFlows` once that
is empty, goes to the back with more deficit or is asked for a packet. Nothing comes of a turn
that is undefined. -/
def turn (config : FqCoDelConfig) (s : FqCoDel) : Option (Turn FqCoDel) :=
  match s.newFlows, s.oldFlows with
  | h :: newFlows, oldFlows =>
      if (s.flow h).deficit ≤ 0 then
        ((s.flow h).increaseDeficit config.quantum).map fun flow =>
          .again { s.setFlow h { flow with status := .oldFlow } with
            oldFlows := oldFlows ++ [h], newFlows := newFlows }
      else s.serve config h true
  | [], h :: oldFlows =>
      if (s.flow h).deficit ≤ 0 then
        ((s.flow h).increaseDeficit config.quantum).map fun flow =>
          .again { s.setFlow h flow with oldFlows := oldFlows ++ [h] }
      else s.serve config h false
  | [], [] => some (.done s)

/-- The loops of `DoDequeue`; they come to an end when it is within so many turns. -/
def doDequeue (config : FqCoDelConfig) : ℕ → FqCoDel → Option FqCoDel
  | 0, _ => none
  | turns + 1, s =>
      match s.turn config with
      | none => none
      | some (.again s) => doDequeue config turns s
      | some (.done s) => some s

end FqCoDel

inductive FqCoDelEvent
  | enqueue (flowHash : Option ℕ) (item : QueueDiscItem)
  | dequeue (turns : ℕ)
  | wait (time : ℕ)

def FqCoDelEvent.packet : FqCoDelEvent → Option QueueDiscItem
  | .enqueue _ item => some item
  | _ => none

namespace FqCoDel

def step (config : FqCoDelConfig) (s : FqCoDel) : FqCoDelEvent → Option FqCoDel
  | .enqueue flowHash item => s.doEnqueue config flowHash item
  | .dequeue turns => s.doDequeue config turns
  | .wait time => some { s with now := s.now + time }

/-- The packets, with their headers, are not empty and of `maxPacket` bytes at most. -/
def machine (config : FqCoDelConfig) (maxPacket : ℕ) : Machine FqCoDel FqCoDelEvent where
  enabled s e := (∀ item ∈ e.packet, 0 < item.size ∧ item.size ≤ maxPacket) ∧
    (s.step config e).isSome
  next s e := (s.step config e).getD s

instance (config : FqCoDelConfig) (maxPacket : ℕ) (s : FqCoDel) (e : FqCoDelEvent) :
    Decidable ((machine config maxPacket).enabled s e) := inferInstanceAs (Decidable (_ ∧ _))

variable {config : FqCoDelConfig} {s s' : FqCoDel} {h i : ℕ} {flow : FqCoDelFlow} {qd : CoDel}

theorem step_of_enabled {maxPacket : ℕ} {e : FqCoDelEvent}
    (he : (machine config maxPacket).enabled s e) :
    s.step config e = some ((machine config maxPacket).next s e) := by
  obtain ⟨s', hs'⟩ := Option.isSome_iff_exists.mp he.2
  show s.step config e = some ((s.step config e).getD s)
  rw [hs', Option.getD_some]

section Classes

@[simp] theorem flow_setFlow_same (s : FqCoDel) (h : ℕ) (flow : FqCoDelFlow) :
    (s.setFlow h flow).flow h = flow := by
  simp [FqCoDel.flow, setFlow]

theorem flow_setFlow_other (s : FqCoDel) (flow : FqCoDelFlow) (hi : i ≠ h) :
    (s.setFlow h flow).flow i = s.flow i := by
  simp [FqCoDel.flow, setFlow, hi]

@[simp] theorem flow_setQueueDisc_same (s : FqCoDel) (h : ℕ) (qd : CoDel) :
    (s.setQueueDisc h qd).flow h = { s.flow h with queueDisc := qd } := flow_setFlow_same s h _

theorem flow_setQueueDisc_other (s : FqCoDel) (qd : CoDel) (hi : i ≠ h) :
    (s.setQueueDisc h qd).flow i = s.flow i := flow_setFlow_other s _ hi

theorem flow_congr (hflows : s'.flowsIndices = s.flowsIndices) (h : ℕ) : s'.flow h = s.flow h := by
  rw [FqCoDel.flow, FqCoDel.flow, hflows]

end Classes

section Turns
variable {item : QueueDiscItem}

structure Replaces (s s' : FqCoDel) (h : ℕ) (flow : FqCoDelFlow) : Prop where
  same : s'.flow h = flow
  other : ∀ i, i ≠ h → s'.flow i = s.flow i
  created : ∀ i, (s'.flowsIndices i).isSome = true ↔ i = h ∨ (s.flowsIndices i).isSome = true
  classes : s'.classes = s.classes
  packets : s'.nPackets = s.nPackets + flow.queueDisc.nPackets - (s.flow h).queueDisc.nPackets

/-- What the turns of `DoDequeue` do: nothing when both lists are empty, else something to the
first class of the two. -/
inductive TurnCase (config : FqCoDelConfig) (s : FqCoDel) : Turn FqCoDel → Prop
  | idle : s.newFlows = [] → s.oldFlows = [] → TurnCase config s (.done s)
  | refill (s' : FqCoDel) (h : ℕ) (rest : List ℕ) (status : FlowStatus) :
      s.newFlows ++ s.oldFlows = h :: rest → (s.flow h).deficit ≤ 0 →
      (status = .inactive → (s.flow h).status = .inactive) →
      s.Replaces s' h
        ⟨(s.flow h).deficit + int32 config.quantum, status, (s.flow h).queueDisc⟩ →
      s'.newFlows = s.newFlows.tail → s'.newFlows ++ s'.oldFlows = rest ++ [h] →
      s'.departures = s.departures → TurnCase config s (.again s')
  | toOld (s' : FqCoDel) (h : ℕ) (rest : List ℕ) (qd : CoDel) :
      s.newFlows = h :: rest → 0 < (s.flow h).deficit → s.queue h = [] → qd.queue = [] →
      qd.Sound → s.Replaces s' h ⟨(s.flow h).deficit, .oldFlow, qd⟩ →
      s'.newFlows = rest → s'.oldFlows = s.oldFlows ++ [h] →
      s'.departures = s.departures → TurnCase config s (.again s')
  | leave (s' : FqCoDel) (h : ℕ) (rest : List ℕ) (qd : CoDel) :
      s.newFlows = [] → s.oldFlows = h :: rest → 0 < (s.flow h).deficit → s.queue h = [] →
      qd.queue = [] → qd.Sound → s.Replaces s' h ⟨(s.flow h).deficit, .inactive, qd⟩ →
      s'.newFlows = [] → s'.oldFlows = rest →
      s'.departures = s.departures → TurnCase config s (.again s')
  | send (s' : FqCoDel) (h : ℕ) (rest : List ℕ) (qd : CoDel) (item : QueueDiscItem) :
      s.newFlows ++ s.oldFlows = h :: rest → 0 < (s.flow h).deficit →
      (s.flow h).queueDisc.Took item qd →
      s.Replaces s' h ⟨(s.flow h).deficit + int32 (-item.size), (s.flow h).status, qd⟩ →
      s'.newFlows = s.newFlows → s'.oldFlows = s.oldFlows →
      s'.departures = s.departures ++ [(h, item)] → TurnCase config s (.done s')

theorem Replaces.of_setFlow (hflows : s'.flowsIndices = (s.setFlow h flow).flowsIndices)
    (hclasses : s'.classes = s.classes)
    (hpackets : s'.nPackets =
      s.nPackets + flow.queueDisc.nPackets - (s.flow h).queueDisc.nPackets) :
    s.Replaces s' h flow where
  same := by rw [flow_congr hflows, flow_setFlow_same]
  other i hi := by rw [flow_congr hflows, flow_setFlow_other s flow hi]
  created i := by
    rw [hflows, setFlow]
    by_cases hi : i = h
    · simp [hi]
    · simp [hi]
  classes := hclasses
  packets := hpackets

theorem setFlow_setFlow (s : FqCoDel) (h : ℕ) (flow flow' : FqCoDelFlow) :
    ((s.setFlow h flow).setFlow h flow').flowsIndices = (s.setFlow h flow').flowsIndices := by
  funext i
  by_cases hi : i = h
  · simp [setFlow, hi]
  · simp [setFlow, hi]

theorem increaseDeficit_spec {flow' : FqCoDelFlow} {d : ℤ}
    (h : flow.increaseDeficit d = some flow') :
    flow' = ⟨flow.deficit + int32 d, flow.status, flow.queueDisc⟩ := by
  unfold FqCoDelFlow.increaseDeficit at h
  dsimp only at h
  split_ifs at h
  exact (Option.some.inj h).symm

theorem increaseDeficit_of_range {d : ℤ}
    (h : -2147483648 ≤ flow.deficit + int32 d ∧ flow.deficit + int32 d < 2147483648) :
    (flow.increaseDeficit d).isSome = true := by
  unfold FqCoDelFlow.increaseDeficit
  dsimp only
  rw [if_pos (Gma.FqPpp.int32_of_range h)]
  rfl

theorem serve_cases {t : Turn FqCoDel} (rest : List ℕ) {newFlows : Bool}
    (hqd : (s.flow h).queueDisc.Sound) (hd : ¬ (s.flow h).deficit ≤ 0)
    (hlists : if newFlows = true then s.newFlows = h :: rest
      else s.newFlows = [] ∧ s.oldFlows = h :: rest)
    (hserve : s.serve config h newFlows = some t) : TurnCase config s t := by
  have hmin : 0 < config.codel.minBytes := Nat.succ_pos 1499
  have hset : ∀ (s' : FqCoDel) (qd : CoDel) (deficit : ℤ) (status : FlowStatus),
      s'.flowsIndices = ((s.setQueueDisc h qd).setFlow h ⟨deficit, status, qd⟩).flowsIndices →
      s'.classes = s.classes → s'.nPackets = (s.setQueueDisc h qd).nPackets →
      s.Replaces s' h ⟨deficit, status, qd⟩ := by
    intro s' qd deficit status hflows hclasses hpackets
    exact .of_setFlow (hflows.trans (setFlow_setFlow s h _ _)) hclasses hpackets
  unfold serve at hserve
  cases CoDel.doDequeue_spec hqd hmin s.now with
  | inl hnone =>
    obtain ⟨hempty, qd, hdequeue, hqueue, hsound⟩ := hnone
    rw [hdequeue] at hserve
    obtain rfl := Option.some.inj hserve
    cases newFlows with
    | true =>
      rw [if_pos rfl] at hlists
      apply TurnCase.toOld _ h rest qd hlists (Int.not_le.mp hd) hempty hqueue hsound
      · apply hset _ qd
        · rw [retire, if_pos rfl, flow_setQueueDisc_same]
        · rfl
        · rfl
      · show s.newFlows.tail = rest
        rw [hlists, List.tail_cons]
      · rfl
      · rfl
    | false =>
      rw [if_neg Bool.false_ne_true] at hlists
      apply TurnCase.leave _ h rest qd hlists.1 hlists.2 (Int.not_le.mp hd) hempty hqueue hsound
      · apply hset _ qd
        · rw [retire, if_neg Bool.false_ne_true, flow_setQueueDisc_same]
        · rfl
        · rfl
      · exact hlists.1
      · show s.oldFlows.tail = rest
        rw [hlists.2, List.tail_cons]
      · rfl
  | inr hsome =>
    obtain ⟨item, qd, hdequeue, htook⟩ := hsome
    rw [hdequeue] at hserve
    obtain ⟨s', hsend, rfl⟩ := Option.map_eq_some_iff.mp hserve
    obtain ⟨flow, hincrease, rfl⟩ := Option.map_eq_some_iff.mp hsend
    have hflow := increaseDeficit_spec hincrease
    rw [flow_setQueueDisc_same] at hflow
    have hfront : ∃ rest', s.newFlows ++ s.oldFlows = h :: rest' := by
      cases newFlows with
      | true =>
        rw [if_pos rfl] at hlists
        exact ⟨rest ++ s.oldFlows, by rw [hlists, List.cons_append]⟩
      | false =>
        rw [if_neg Bool.false_ne_true] at hlists
        exact ⟨rest, by rw [hlists.1, hlists.2, List.nil_append]⟩
    obtain ⟨rest', hrest'⟩ := hfront
    apply TurnCase.send _ h rest' qd item hrest' (Int.not_le.mp hd) htook
    · apply hset _ qd
      · rw [hflow]
      · rfl
      · rfl
    · rfl
    · rfl
    · rfl

theorem turn_cases {t : Turn FqCoDel} (hdiscs : ∀ h, (s.flow h).queueDisc.Sound)
    (hturn : s.turn config = some t) : TurnCase config s t := by
  unfold turn at hturn
  cases hnew : s.newFlows with
  | cons h rest =>
    rw [hnew] at hturn
    dsimp only at hturn
    by_cases hd : (s.flow h).deficit ≤ 0
    · rw [if_pos hd] at hturn
      obtain ⟨flow, hincrease, rfl⟩ := Option.map_eq_some_iff.mp hturn
      rw [increaseDeficit_spec hincrease]
      apply TurnCase.refill _ h (rest ++ s.oldFlows) .oldFlow
      · rw [hnew, List.cons_append]
      · exact hd
      · exact nofun
      · exact .of_setFlow rfl rfl (Nat.add_sub_cancel _ _).symm
      · rw [hnew, List.tail_cons]
      · rw [List.append_assoc]
      · rfl
    · rw [if_neg hd] at hturn
      apply serve_cases rest (hdiscs h) hd _ hturn
      exact hnew
  | nil =>
    cases hold : s.oldFlows with
    | cons h rest =>
      rw [hnew, hold] at hturn
      dsimp only at hturn
      by_cases hd : (s.flow h).deficit ≤ 0
      · rw [if_pos hd] at hturn
        obtain ⟨flow, hincrease, rfl⟩ := Option.map_eq_some_iff.mp hturn
        rw [increaseDeficit_spec hincrease]
        apply TurnCase.refill _ h rest (s.flow h).status
        · rw [hnew, hold, List.nil_append]
        · exact hd
        · exact id
        · exact .of_setFlow rfl rfl (Nat.add_sub_cancel _ _).symm
        · rw [hnew, List.tail_nil]
          exact hnew
        · show s.newFlows ++ (rest ++ [h]) = rest ++ [h]
          rw [hnew, List.nil_append]
        · rfl
      · rw [if_neg hd] at hturn
        apply serve_cases rest (hdiscs h) hd _ hturn
        exact ⟨hnew, hold⟩
    | nil =>
      rw [hnew, hold] at hturn
      obtain rfl := Option.some.inj hturn
      exact .idle hnew hold

end Turns
end FqCoDel

section View

/-- The class as the FqPpp disc has it, with the numbers of bytes instead of the packets. -/
def FqCoDelFlow.view (h : ℕ) (flow : FqCoDelFlow) : FqPppFlow :=
  ⟨flow.deficit, flow.status, flow.queueDisc.queue.map fun item => ⟨0, h, item.size⟩⟩

namespace FqCoDel
variable {config : FqCoDelConfig} {s s' : FqCoDel} {h i : ℕ} {flow : FqCoDelFlow}

def view (s : FqCoDel) : FqPpp where
  flowsIndices := fun h => (s.flowsIndices h).map (FqCoDelFlow.view h)
  tags := s.tags
  newFlows := s.newFlows
  oldFlows := s.oldFlows
  arrivals := 0
  departures := s.departures.map fun d => ⟨0, d.1, d.2.size⟩

def viewTurn : Turn FqCoDel → Turn FqPpp
  | .again s => .again s.view
  | .done s => .done s.view

theorem view_flow (s : FqCoDel) (h : ℕ) : s.view.flow h = (s.flow h).view h := by
  unfold FqPpp.flow FqCoDel.flow view
  cases hi : s.flowsIndices h with
  | none =>
    simp only [hi]
    rfl
  | some flow =>
    simp only [hi]
    rfl

theorem view_queue (s : FqCoDel) (h : ℕ) :
    s.view.queue h = (s.queue h).map fun item => ⟨0, h, item.size⟩ := by
  rw [FqPpp.queue, view_flow]
  rfl

theorem view_queue_eq_nil : s.view.queue h = [] ↔ s.queue h = [] := by
  rw [view_queue, List.map_eq_nil_iff]

theorem Replaces.view (hr : s.Replaces s' h flow)
    (hqueue : flow.queueDisc.queue <:+ s.queue h) : s.view.Replaces s'.view h (flow.view h) where
  same := by rw [view_flow, hr.same]
  other i hi := by rw [view_flow, view_flow, hr.other i hi]
  queue := by
    rw [view_queue]
    exact hqueue.map _

theorem TurnCase.view {t : Turn FqCoDel} (ht : TurnCase config s t)
    (hquantum : config.quantum < 2147483648)
    (hsizes : ∀ h, ∀ item ∈ s.queue h, item.size < 2147483648) :
    FqPpp.TurnCase config.toFqPppConfig s.view (viewTurn t) := by
  have hdeficit : ∀ h, (s.view.flow h).deficit = (s.flow h).deficit := by
    intro h
    rw [view_flow]
    rfl
  cases ht with
  | idle hnew hold => exact .idle hnew hold
  | refill s' h rest status hlists hd hstatus hreplace hnew' hlists' hdep =>
    apply FqPpp.TurnCase.refill _ h rest status hlists
    · rw [hdeficit]
      exact hd
    · rw [view_flow]
      exact hstatus
    · have hview := hreplace.view (List.suffix_refl _)
      rw [Gma.FqPpp.int32_of_range (by omega)] at hview
      rw [hdeficit, view_queue]
      exact hview
    · exact hnew'
    · exact hlists'
    · exact congrArg (List.map _) hdep
  | toOld s' h rest qd hnew hd hempty hqueue hsound hreplace hnew' hold' hdep =>
    apply FqPpp.TurnCase.toOld _ h rest hnew
    · rw [hdeficit]
      exact hd
    · have hview := hreplace.view (hqueue ▸ List.nil_suffix)
      rw [FqCoDelFlow.view, hqueue] at hview
      rw [hdeficit]
      exact hview
    · exact hnew'
    · exact hold'
    · exact congrArg (List.map _) hdep
  | leave s' h rest qd hnew hold hd hempty hqueue hsound hreplace hnew' hold' hdep =>
    apply FqPpp.TurnCase.leave _ h rest hnew hold
    · rw [hdeficit]
      exact hd
    · have hview := hreplace.view (hqueue ▸ List.nil_suffix)
      rw [FqCoDelFlow.view, hqueue] at hview
      rw [hdeficit]
      exact hview
    · exact hnew'
    · exact hold'
    · exact congrArg (List.map _) hdep
  | send s' h rest qd item hlists hd htook hreplace hnew' hold' hdep =>
    obtain ⟨dropped, old, hall, hsize⟩ := htook.queue
    have hsuffix : old :: qd.queue <:+ s.queue h := ⟨dropped, hall.symm⟩
    have hsmall : old.size < 2147483648 := hsizes h old (hsuffix.subset List.mem_cons_self)
    apply FqPpp.TurnCase.send _ h rest ⟨0, h, item.size⟩
      (qd.queue.map fun item => ⟨0, h, item.size⟩) hlists
    · rw [hdeficit]
      exact hd
    · have hview := hreplace.view ((List.suffix_cons old qd.queue).trans hsuffix)
      rw [Gma.FqPpp.int32_of_range (by omega)] at hview
      rw [view_flow]
      exact hview
    · exact hnew'
    · exact hold'
    · rw [view_queue, hsize]
      exact List.mem_map_of_mem (hsuffix.subset List.mem_cons_self)
    · show s'.departures.map _ = s.departures.map _ ++ [_]
      rw [hdep, List.map_append, List.map_singleton]

end FqCoDel
end View
end NetGymSim.TrafficControl

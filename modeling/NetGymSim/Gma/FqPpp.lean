import Mathlib.Data.List.Range
import Mathlib.Order.Basic
import NetGymSim.Lib.Machine

/-!
# Order within a flow of the FqPpp queue disc

A packet goes to the first slot of its set that is new, tagged with its hash or
inactive, and to the first slot of the set when there is none. A flow therefore
leaves a slot in which its packets wait when an earlier slot of the set falls
inactive, and when the first slot was tagged again for a flow that found no slot.
A run keeps every flow in one slot just when no packet is admitted so, and then
the packets of a flow leave in the order of their arrival.
-/

namespace NetGymSim.Gma
open NetGymSim.Lib

/-- The attributes as `CheckConfig` accepts them; a count of zero divides by zero. -/
structure FqPppConfig where
  flows : ℕ
  setWays : ℕ
  enableSetAssociativeHash : Bool
  quantum : ℕ
  flows_pos : 0 < flows
  setWays_pos : 0 < setWays
  quantum_pos : 0 < quantum
  flows_lt : flows < 4294967296
  setWays_dvd : enableSetAssociativeHash = true → setWays ∣ flows

/-- `ident` counts the packets in the order of their arrival. -/
structure FqPppItem where
  ident : ℕ
  flowHash : ℕ
  size : ℕ
deriving DecidableEq

inductive FlowStatus
  | inactive
  | newFlow
  | oldFlow
deriving DecidableEq

structure FqPppFlow where
  deficit : ℤ
  status : FlowStatus
  queue : List FqPppItem

/-- `flowsIndices` has the class of each slot that was created, `departures` the packets that
`DoDequeue` returned, oldest first. -/
structure FqPpp where
  flowsIndices : ℕ → Option FqPppFlow
  tags : ℕ → Option ℕ
  newFlows : List ℕ
  oldFlows : List ℕ
  arrivals : ℕ
  departures : List FqPppItem

namespace FqPpp

def start : FqPpp := ⟨fun _ => none, fun _ => none, [], [], 0, []⟩

def flow (s : FqPpp) (h : ℕ) : FqPppFlow := (s.flowsIndices h).getD ⟨0, .inactive, []⟩

def queue (s : FqPpp) (h : ℕ) : List FqPppItem := (s.flow h).queue

def setFlow (s : FqPpp) (h : ℕ) (flow : FqPppFlow) : FqPpp :=
  { s with flowsIndices := fun i => if i = h then some flow else s.flowsIndices i }

/-- The test of the loop in `SetAssociativeHash`. -/
def usable (s : FqPpp) (flowHash i : ℕ) : Bool :=
  match s.flowsIndices i with
  | none => true
  | some flow => s.tags i = some flowHash || flow.status = .inactive

end FqPpp

def FqPppConfig.outerHash (config : FqPppConfig) (flowHash : ℕ) : ℕ :=
  let h := flowHash % config.flows
  let innerHash := h % config.setWays
  h - innerHash

/-- The slots `SetAssociativeHash` looks through, in this order. -/
def FqPppConfig.slots (config : FqPppConfig) (flowHash : ℕ) : List ℕ :=
  List.range' (config.outerHash flowHash) config.setWays

namespace FqPpp

def setAssociativeHash (config : FqPppConfig) (s : FqPpp) (flowHash : ℕ) : ℕ × FqPpp :=
  let h := ((config.slots flowHash).find? (s.usable flowHash)).getD (config.outerHash flowHash)
  (h, { s with tags := fun i => if i = h then some flowHash else s.tags i })

def classify (config : FqPppConfig) (s : FqPpp) (flowHash : ℕ) : ℕ × FqPpp :=
  if config.enableSetAssociativeHash then s.setAssociativeHash config flowHash
  else (flowHash % config.flows, s)

/-- An inactive class starts anew at the end of `m_newFlows`. -/
def activate (config : FqPppConfig) (s : FqPpp) (h : ℕ) : FqPpp :=
  let flow := s.flow h
  if flow.status = .inactive then
    { s.setFlow h ⟨config.quantum, .newFlow, flow.queue⟩ with newFlows := s.newFlows ++ [h] }
  else s.setFlow h flow

def append (s : FqPpp) (h : ℕ) (item : FqPppItem) : FqPpp :=
  s.setFlow h { s.flow h with queue := s.queue h ++ [item] }

/-- `flowHash` is missing when no packet filter classifies the packet; `admitted` says whether
the inner queue disc takes it. -/
def doEnqueue (config : FqPppConfig) (s : FqPpp) (flowHash : Option ℕ) (size : ℕ)
    (admitted : Bool) : FqPpp :=
  let item : ℕ → FqPppItem := fun f => ⟨s.arrivals, f, size⟩
  let s := { s with arrivals := s.arrivals + 1 }
  match flowHash with
  | none => s
  | some f =>
      let (h, s) := s.classify config f
      let s := s.activate config h
      if admitted then s.append h (item f) else s

/-- The inner queue disc drops `drops` packets before it hands one out; without a packet the
class goes to the old ones, or is inactive if it was one of them. -/
def serve (s : FqPpp) (h drops : ℕ) (newFlows : Bool) : Turn FqPpp :=
  let flow := s.flow h
  match flow.queue.drop drops with
  | [] =>
      if newFlows then
        .again { s.setFlow h ⟨flow.deficit, .oldFlow, []⟩ with
          oldFlows := s.oldFlows ++ [h], newFlows := s.newFlows.tail }
      else
        .again { s.setFlow h ⟨flow.deficit, .inactive, []⟩ with oldFlows := s.oldFlows.tail }
  | item :: queue =>
      .done { s.setFlow h ⟨flow.deficit - item.size, flow.status, queue⟩ with
        departures := s.departures ++ [item] }

/-- One turn of the loops of `DoDequeue`: the front of `m_newFlows`, or of `m_oldFlows` once that
is empty, goes to the back with more deficit or is asked for a packet. -/
def turn (config : FqPppConfig) (s : FqPpp) (drops : ℕ) : Turn FqPpp :=
  match s.newFlows, s.oldFlows with
  | h :: newFlows, oldFlows =>
      if (s.flow h).deficit ≤ 0 then
        .again { s.setFlow h ⟨(s.flow h).deficit + config.quantum, .oldFlow, s.queue h⟩ with
          oldFlows := oldFlows ++ [h], newFlows := newFlows }
      else s.serve h drops true
  | [], h :: oldFlows =>
      if (s.flow h).deficit ≤ 0 then
        .again { s.setFlow h { s.flow h with deficit := (s.flow h).deficit + config.quantum } with
          oldFlows := oldFlows ++ [h] }
      else s.serve h drops false
  | [], [] => .done s

/-- The loops of `DoDequeue` with what the inner queue discs drop in each turn; it is missing
when these are not the turns the loops take. -/
def doDequeue (config : FqPppConfig) : FqPpp → List ℕ → Option FqPpp
  | _, [] => none
  | s, drops :: turns =>
      match s.turn config drops with
      | .again s' => doDequeue config s' turns
      | .done s' => if turns = [] then some s' else none

end FqPpp

namespace FqPpp

@[simp] theorem flow_setFlow_same (s : FqPpp) (h : ℕ) (flow : FqPppFlow) :
    (s.setFlow h flow).flow h = flow := by
  simp [FqPpp.flow, setFlow]

theorem flow_setFlow_other (s : FqPpp) {h i : ℕ} (flow : FqPppFlow) (hi : i ≠ h) :
    (s.setFlow h flow).flow i = s.flow i := by
  simp [FqPpp.flow, setFlow, hi]

def Busy (s : FqPpp) : Prop := ∀ h, s.queue h ≠ [] → (s.flow h).status ≠ .inactive

structure Shrinks (s s' : FqPpp) : Prop where
  queue : ∀ h, s'.queue h <:+ s.queue h
  busy : s.Busy → s'.Busy
  arrivals : s'.arrivals = s.arrivals

theorem Shrinks.refl (s : FqPpp) : s.Shrinks s :=
  ⟨fun h => List.suffix_refl (s.queue h), id, rfl⟩

theorem Shrinks.trans {s s' s'' : FqPpp} (h : s.Shrinks s') (h' : s'.Shrinks s'') :
    s.Shrinks s'' :=
  ⟨fun k => (h'.queue k).trans (h.queue k), fun hb => h'.busy (h.busy hb),
    h'.arrivals.trans h.arrivals⟩

theorem Shrinks.of_flow {s s' : FqPpp} {h : ℕ} {flow : FqPppFlow} (hsame : s'.flow h = flow)
    (hother : ∀ i, i ≠ h → s'.flow i = s.flow i) (harr : s'.arrivals = s.arrivals)
    (hqueue : flow.queue <:+ s.queue h)
    (hstatus : s.Busy → flow.queue ≠ [] → flow.status ≠ .inactive) : s.Shrinks s' := by
  refine ⟨?_, ?_, harr⟩
  · intro i
    by_cases hi : i = h
    · rw [hi, FqPpp.queue, hsame]
      exact hqueue
    · rw [FqPpp.queue, hother i hi]
      exact List.suffix_refl _
  · intro hbusy i hne
    by_cases hi : i = h
    · rw [hi, FqPpp.queue, hsame] at hne
      rw [hi, hsame]
      exact hstatus hbusy hne
    · rw [FqPpp.queue, hother i hi] at hne
      rw [hother i hi]
      exact hbusy i hne

structure Leaves (s s' : FqPpp) (h : ℕ) (item : FqPppItem) : Prop where
  queue : item :: s'.queue h <:+ s.queue h
  other : ∀ i, i ≠ h → s'.queue i = s.queue i
  departures : s'.departures = s.departures ++ [item]

theorem serve_again {s s' : FqPpp} {h drops : ℕ} {newFlows : Bool}
    (hs : s.serve h drops newFlows = .again s') :
    s.Shrinks s' ∧ s'.departures = s.departures := by
  unfold serve at hs
  cases hq : (s.flow h).queue.drop drops with
  | nil =>
    simp only [hq] at hs
    cases newFlows with
    | true =>
      cases hs
      refine ⟨Shrinks.of_flow (flow_setFlow_same s h _) (fun i hi => flow_setFlow_other s _ hi) rfl
        List.nil_suffix ?_, rfl⟩
      intro _ hne
      exact absurd rfl hne
    | false =>
      cases hs
      refine ⟨Shrinks.of_flow (flow_setFlow_same s h _) (fun i hi => flow_setFlow_other s _ hi) rfl
        List.nil_suffix ?_, rfl⟩
      intro _ hne
      exact absurd rfl hne
  | cons item queue =>
    simp only [hq] at hs
    cases hs

theorem serve_done {s s' : FqPpp} {h drops : ℕ} {newFlows : Bool}
    (hs : s.serve h drops newFlows = .done s') :
    s.Shrinks s' ∧ ∃ item, s.Leaves s' h item := by
  unfold serve at hs
  cases hq : (s.flow h).queue.drop drops with
  | nil =>
    simp only [hq] at hs
    cases newFlows <;> cases hs
  | cons item queue =>
    simp only [hq] at hs
    cases hs
    have hsuffix : item :: queue <:+ s.queue h := hq ▸ List.drop_suffix drops _
    constructor
    · refine Shrinks.of_flow (flow_setFlow_same s h _) (fun i hi => flow_setFlow_other s _ hi) rfl
        ((List.suffix_cons item queue).trans hsuffix) ?_
      intro hbusy _
      apply hbusy h
      intro hnil
      rw [hnil] at hsuffix
      cases List.suffix_nil.mp hsuffix
    · refine ⟨item, ?_, ?_, rfl⟩
      · show item :: ((s.setFlow h _).flow h).queue <:+ s.queue h
        rw [flow_setFlow_same]
        exact hsuffix
      · intro i hi
        exact congrArg FqPppFlow.queue (flow_setFlow_other s _ hi)

theorem turn_again {config : FqPppConfig} {s s' : FqPpp} {drops : ℕ}
    (hs : s.turn config drops = .again s') :
    s.Shrinks s' ∧ s'.departures = s.departures := by
  unfold turn at hs
  cases hnew : s.newFlows with
  | cons h newFlows =>
    simp only [hnew] at hs
    by_cases hd : (s.flow h).deficit ≤ 0
    · rw [if_pos hd] at hs
      cases hs
      refine ⟨Shrinks.of_flow (flow_setFlow_same s h _) (fun i hi => flow_setFlow_other s _ hi) rfl
        (List.suffix_refl _) ?_, rfl⟩
      intro _ _
      simp
    · rw [if_neg hd] at hs
      exact serve_again hs
  | nil =>
    cases hold : s.oldFlows with
    | cons h oldFlows =>
      simp only [hnew, hold] at hs
      by_cases hd : (s.flow h).deficit ≤ 0
      · rw [if_pos hd] at hs
        cases hs
        refine ⟨Shrinks.of_flow (flow_setFlow_same s h _)
          (fun i hi => flow_setFlow_other s _ hi) rfl (List.suffix_refl _) ?_, rfl⟩
        intro hbusy hne
        exact hbusy h hne
      · rw [if_neg hd] at hs
        exact serve_again hs
    | nil =>
      simp only [hnew, hold] at hs
      cases hs

theorem turn_done {config : FqPppConfig} {s s' : FqPpp} {drops : ℕ}
    (hs : s.turn config drops = .done s') :
    s' = s ∨ s.Shrinks s' ∧ ∃ h item, s.Leaves s' h item := by
  unfold turn at hs
  cases hnew : s.newFlows with
  | cons h newFlows =>
    simp only [hnew] at hs
    by_cases hd : (s.flow h).deficit ≤ 0
    · rw [if_pos hd] at hs
      cases hs
    · rw [if_neg hd] at hs
      obtain ⟨hshrinks, item, hleaves⟩ := serve_done hs
      exact .inr ⟨hshrinks, h, item, hleaves⟩
  | nil =>
    cases hold : s.oldFlows with
    | cons h oldFlows =>
      simp only [hnew, hold] at hs
      by_cases hd : (s.flow h).deficit ≤ 0
      · rw [if_pos hd] at hs
        cases hs
      · rw [if_neg hd] at hs
        obtain ⟨hshrinks, item, hleaves⟩ := serve_done hs
        exact .inr ⟨hshrinks, h, item, hleaves⟩
    | nil =>
      simp only [hnew, hold] at hs
      cases hs
      exact .inl rfl

theorem doDequeue_spec {config : FqPppConfig} {turns : List ℕ} {s s' : FqPpp}
    (hs : s.doDequeue config turns = some s') :
    s.Shrinks s' ∧ (s'.departures = s.departures ∨
      ∃ t h item, s.Shrinks t ∧ t.departures = s.departures ∧ t.Leaves s' h item) := by
  induction turns generalizing s with
  | nil => cases hs
  | cons drops turns ih =>
    unfold doDequeue at hs
    cases ht : s.turn config drops with
    | again t =>
      simp only [ht] at hs
      obtain ⟨hst, hdep⟩ := turn_again ht
      obtain ⟨hts', hleft⟩ := ih hs
      refine ⟨hst.trans hts', ?_⟩
      cases hleft with
      | inl hnone => exact .inl (hnone.trans hdep)
      | inr hsome =>
        obtain ⟨u, h, item, htu, hu, hleaves⟩ := hsome
        exact .inr ⟨u, h, item, hst.trans htu, hu.trans hdep, hleaves⟩
    | done t =>
      simp only [ht] at hs
      by_cases hturns : turns = []
      · rw [if_pos hturns] at hs
        cases hs
        cases turn_done ht with
        | inl hsame =>
          rw [hsame]
          exact ⟨Shrinks.refl s, .inl rfl⟩
        | inr hleft =>
          obtain ⟨hshrinks, h, item, hleaves⟩ := hleft
          exact ⟨hshrinks, .inr ⟨s, h, item, Shrinks.refl s, rfl, hleaves⟩⟩
      · rw [if_neg hturns] at hs
        cases hs

end FqPpp

namespace FqPpp

def Waits (s : FqPpp) (flowHash h : ℕ) : Prop := ∃ item ∈ s.queue h, item.flowHash = flowHash

instance (s : FqPpp) (flowHash h : ℕ) : Decidable (s.Waits flowHash h) :=
  inferInstanceAs (Decidable (∃ item ∈ s.queue h, item.flowHash = flowHash))

def SameSlot (s : FqPpp) : Prop := ∀ f h k, s.Waits f h → s.Waits f k → h = k

def LeftInOrder (s : FqPpp) : Prop :=
  s.departures.Pairwise fun a b => a.flowHash = b.flowHash → a.ident < b.ident

end FqPpp

inductive FqPppEvent
  | enqueue (flowHash : Option ℕ) (size : ℕ) (admitted : Bool)
  | dequeue (turns : List ℕ)

namespace FqPpp

def machine (config : FqPppConfig) : Machine FqPpp FqPppEvent where
  enabled s
    | .enqueue _ _ _ => True
    | .dequeue turns => (s.doDequeue config turns).isSome
  next s
    | .enqueue flowHash size admitted => s.doEnqueue config flowHash size admitted
    | .dequeue turns => (s.doDequeue config turns).getD s

instance (config : FqPppConfig) (s : FqPpp) (e : FqPppEvent) :
    Decidable ((machine config).enabled s e) :=
  match e with
  | .enqueue _ _ _ => inferInstanceAs (Decidable True)
  | .dequeue turns => inferInstanceAs (Decidable ((s.doDequeue config turns).isSome = true))

/-- A packet that is admitted finds the slot in which packets of its flow wait: the slot still
has the tag of the flow and each slot of the set before it is in use by another one, or it is the
first slot of the set and all slots are. -/
def Keeps (config : FqPppConfig) (s : FqPpp) : FqPppEvent → Prop
  | .enqueue (some f) _ true => ∀ h, s.Waits f h →
      (s.tags h = some f ∧ ∀ i ∈ config.slots f, i < h → s.usable f i = false) ∨
      (h = config.outerHash f ∧ ∀ i ∈ config.slots f, s.usable f i = false)
  | _ => True

structure Joins (s s' : FqPpp) (h : ℕ) (item : FqPppItem) : Prop where
  same : s'.queue h = s.queue h ++ [item]
  other : ∀ i, i ≠ h → s'.queue i = s.queue i

theorem flow_activate_same (config : FqPppConfig) (s : FqPpp) (h : ℕ) :
    (s.activate config h).flow h =
      if (s.flow h).status = .inactive then ⟨config.quantum, .newFlow, s.queue h⟩
      else s.flow h := by
  unfold activate
  by_cases hstatus : (s.flow h).status = .inactive
  · simp only [if_pos hstatus]
    exact flow_setFlow_same s h ⟨config.quantum, .newFlow, s.queue h⟩
  · simp only [if_neg hstatus]
    exact flow_setFlow_same s h (s.flow h)

theorem flow_activate_other (config : FqPppConfig) (s : FqPpp) {h i : ℕ} (hi : i ≠ h) :
    (s.activate config h).flow i = s.flow i := by
  unfold activate
  by_cases hstatus : (s.flow h).status = .inactive
  · simp only [if_pos hstatus]
    exact flow_setFlow_other s _ hi
  · simp only [if_neg hstatus]
    exact flow_setFlow_other s _ hi

theorem queue_activate (config : FqPppConfig) (s : FqPpp) (h i : ℕ) :
    (s.activate config h).queue i = s.queue i := by
  by_cases hi : i = h
  · rw [hi, FqPpp.queue, flow_activate_same]
    by_cases hstatus : (s.flow h).status = .inactive
    · rw [if_pos hstatus]
    · rw [if_neg hstatus, FqPpp.queue]
  · rw [FqPpp.queue, flow_activate_other config s hi, FqPpp.queue]

theorem status_activate (config : FqPppConfig) (s : FqPpp) (h : ℕ) :
    ((s.activate config h).flow h).status ≠ .inactive := by
  rw [flow_activate_same]
  by_cases hstatus : (s.flow h).status = .inactive
  · rw [if_pos hstatus]
    simp
  · rw [if_neg hstatus]
    exact hstatus

theorem counts_activate (config : FqPppConfig) (s : FqPpp) (h : ℕ) :
    (s.activate config h).arrivals = s.arrivals ∧
      (s.activate config h).departures = s.departures := by
  unfold activate
  by_cases hstatus : (s.flow h).status = .inactive
  · simp only [if_pos hstatus]
    exact ⟨rfl, rfl⟩
  · simp only [if_neg hstatus]
    exact ⟨rfl, rfl⟩

theorem Busy.activate {s : FqPpp} (config : FqPppConfig) (hbusy : s.Busy) (h : ℕ) :
    (s.activate config h).Busy := by
  intro i hne
  by_cases hi : i = h
  · rw [hi]
    exact status_activate config s h
  · rw [flow_activate_other config s hi]
    rw [queue_activate] at hne
    exact hbusy i hne

theorem Busy.append {s : FqPpp} (hbusy : s.Busy) {h : ℕ} (hstatus : (s.flow h).status ≠ .inactive)
    (item : FqPppItem) : (s.append h item).Busy := by
  intro i hne
  by_cases hi : i = h
  · rw [hi, FqPpp.append, flow_setFlow_same]
    exact hstatus
  · rw [FqPpp.append, flow_setFlow_other s _ hi]
    rw [FqPpp.queue, FqPpp.append, flow_setFlow_other s _ hi] at hne
    exact hbusy i hne

theorem append_joins (s : FqPpp) (h : ℕ) (item : FqPppItem) :
    s.Joins (s.append h item) h item := by
  constructor
  · exact congrArg FqPppFlow.queue (flow_setFlow_same s h _)
  · intro i hi
    exact congrArg FqPppFlow.queue (flow_setFlow_other s _ hi)

theorem classify_spec (config : FqPppConfig) (s : FqPpp) (f : ℕ) :
    ∃ tags, (s.classify config f).2 = { s with tags := tags } := by
  unfold classify
  cases config.enableSetAssociativeHash
  · exact ⟨s.tags, rfl⟩
  · exact ⟨_, rfl⟩

def slot (config : FqPppConfig) (s : FqPpp) (f : ℕ) : ℕ := (s.classify config f).1

theorem doEnqueue_spec (config : FqPppConfig) (s : FqPpp) (flowHash : Option ℕ) (size : ℕ)
    (admitted : Bool) :
    let s' := s.doEnqueue config flowHash size admitted
    s'.departures = s.departures ∧ s'.arrivals = s.arrivals + 1 ∧ (s.Busy → s'.Busy) ∧
      ((∀ i, s'.queue i = s.queue i) ∧ (∀ f, flowHash = some f → admitted = false) ∨
        ∃ f, flowHash = some f ∧ admitted = true ∧
          s.Joins s' (s.slot config f) ⟨s.arrivals, f, size⟩) := by
  intro s'
  cases flowHash with
  | none => exact ⟨rfl, rfl, id, .inl ⟨fun _ => rfl, fun f hf => by cases hf⟩⟩
  | some f =>
    let counted : FqPpp := { s with arrivals := s.arrivals + 1 }
    obtain ⟨tags, htags⟩ := classify_spec config counted f
    have hslot : (counted.classify config f).1 = s.slot config f := by
      unfold slot classify
      cases config.enableSetAssociativeHash <;> rfl
    let t := (counted.classify config f).2
    let u := t.activate config (s.slot config f)
    have ht : t = { counted with tags := tags } := htags
    have harr : u.arrivals = s.arrivals + 1 := by
      rw [show u.arrivals = t.arrivals from (counts_activate config t _).1, ht]
    have hdep : u.departures = s.departures := by
      rw [show u.departures = t.departures from (counts_activate config t _).2, ht]
    have hqueue : ∀ i, u.queue i = s.queue i := by
      intro i
      rw [show u.queue i = t.queue i from queue_activate config t _ i, ht]
      rfl
    have hbusy : s.Busy → u.Busy := by
      intro hs
      apply Busy.activate config
      rw [ht]
      exact hs
    have hstatus : (u.flow (s.slot config f)).status ≠ .inactive := status_activate config t _
    cases admitted with
    | false =>
      have hs' : s' = u := by
        simp only [u, ← hslot]
        rfl
      rw [hs']
      exact ⟨hdep, harr, hbusy, .inl ⟨hqueue, fun _ _ => rfl⟩⟩
    | true =>
      have hs' : s' = u.append (s.slot config f) ⟨s.arrivals, f, size⟩ := by
        simp only [u, ← hslot]
        rfl
      obtain ⟨hsame, hother⟩ := append_joins u (s.slot config f) ⟨s.arrivals, f, size⟩
      rw [hs']
      refine ⟨hdep, harr, fun hs => (hbusy hs).append hstatus _, .inr ⟨f, rfl, rfl, ?_, ?_⟩⟩
      · rw [hsame, hqueue]
      · intro i hi
        rw [hother i hi, hqueue]

theorem usable_busy {s : FqPpp} (hbusy : s.Busy) {h : ℕ} (hne : s.queue h ≠ []) (f : ℕ) :
    s.usable f h = true ↔ s.tags h = some f := by
  have hstatus := hbusy h hne
  unfold usable
  cases hflow : s.flowsIndices h with
  | none =>
    rw [FqPpp.queue, FqPpp.flow, hflow] at hne
    exact absurd rfl hne
  | some flow =>
    rw [FqPpp.flow, hflow] at hstatus
    simp only [Option.getD_some] at hstatus
    simp [hstatus]

/-- What holds of the queues in every run: each has its packets in the order of their arrival, in
slots of their own set, and the scheduler knows of it. -/
structure Sound (config : FqPppConfig) (s : FqPpp) : Prop where
  sorted : ∀ h, (s.queue h).Pairwise fun a b => a.ident < b.ident
  fresh : ∀ h, ∀ item ∈ s.queue h, item.ident < s.arrivals
  busy : s.Busy
  placed : ∀ h, ∀ item ∈ s.queue h, h ∈ config.slots item.flowHash

theorem Sound.start : Sound config start := by
  constructor
  · intro h
    exact .nil
  · intro h item hitem
    cases hitem
  · intro h hne
    exact absurd rfl hne
  · intro h item hitem
    cases hitem

theorem Sound.of_shrinks {s s' : FqPpp} (hs : Sound config s) (h : s.Shrinks s') :
    Sound config s' := by
  constructor
  · intro k
    exact (hs.sorted k).sublist (h.queue k).sublist
  · intro k item hitem
    rw [h.arrivals]
    exact hs.fresh k item ((h.queue k).subset hitem)
  · exact h.busy hs.busy
  · intro k item hitem
    exact hs.placed k item ((h.queue k).subset hitem)

section SetAssociative
variable {config : FqPppConfig} (hset : config.enableSetAssociativeHash = true)
include hset

theorem slot_eq (s : FqPpp) (f : ℕ) :
    s.slot config f =
      ((config.slots f).find? (s.usable f)).getD (config.outerHash f) := by
  unfold slot classify
  rw [if_pos hset]
  rfl

theorem slot_mem (s : FqPpp) (f : ℕ) : s.slot config f ∈ config.slots f := by
  rw [slot_eq hset]
  cases hfind : (config.slots f).find? (s.usable f) with
  | none =>
    have := config.setWays_pos
    show config.outerHash f ∈ _
    rw [FqPppConfig.slots, List.mem_range'_1]
    omega
  | some h => exact List.mem_of_find?_eq_some hfind

theorem slot_eq_iff {s : FqPpp} (hbusy : s.Busy) {f h : ℕ} (hne : s.queue h ≠ [])
    (hmem : h ∈ config.slots f) :
    s.slot config f = h ↔
      (s.tags h = some f ∧ ∀ i ∈ config.slots f, i < h → s.usable f i = false) ∨
      (h = config.outerHash f ∧ ∀ i ∈ config.slots f, s.usable f i = false) := by
  rw [slot_eq hset]
  have hlow : ∀ i, i ∈ config.slots f → config.outerHash f ≤ i := fun i hi =>
    (List.mem_range'_1.mp hi).1
  cases hfind : (config.slots f).find? (s.usable f) with
  | none =>
    have hnone : ∀ i ∈ config.slots f, s.usable f i = false := by
      intro i hi
      exact Bool.eq_false_iff.mpr (List.find?_eq_none.mp hfind i hi)
    constructor
    · intro heq
      exact .inr ⟨heq.symm, hnone⟩
    · rintro (⟨htag, _⟩ | ⟨heq, _⟩)
      · rw [← usable_busy hbusy hne, hnone h hmem] at htag
        cases htag
      · exact heq.symm
  | some k =>
    obtain ⟨hk, hkmem, hkfirst⟩ := List.find?_range'_eq_some.mp hfind
    constructor
    · intro heq
      obtain rfl : k = h := heq
      refine .inl ⟨(usable_busy hbusy hne f).mp hk, ?_⟩
      intro i hi hik
      simpa using hkfirst i (hlow i hi) hik
    · rintro (⟨htag, hfirst⟩ | ⟨_, hnone⟩)
      · have hh : s.usable f h = true := (usable_busy hbusy hne f).mpr htag
        show k = h
        by_contra hkh
        cases lt_or_gt_of_ne hkh with
        | inl hlt =>
          have := hfirst k hkmem hlt
          rw [hk] at this
          cases this
        | inr hgt =>
          have := hkfirst h (hlow h hmem) hgt
          rw [hh] at this
          cases this
      · rw [hnone k hkmem] at hk
        cases hk

theorem Sound.doEnqueue {s : FqPpp} (hs : Sound config s) (flowHash : Option ℕ) (size : ℕ)
    (admitted : Bool) : Sound config (s.doEnqueue config flowHash size admitted) := by
  obtain ⟨_, harr, hbusy, hqueues⟩ := doEnqueue_spec config s flowHash size admitted
  cases hqueues with
  | inl hsame =>
    constructor
    · intro h
      rw [hsame.1]
      exact hs.sorted h
    · intro h item hitem
      rw [hsame.1] at hitem
      rw [harr]
      exact Nat.lt_succ_of_lt (hs.fresh h item hitem)
    · exact hbusy hs.busy
    · intro h item hitem
      rw [hsame.1] at hitem
      exact hs.placed h item hitem
  | inr hjoin =>
    obtain ⟨f, _, _, hjoins⟩ := hjoin
    -- the packets of a slot are the old ones and, in the chosen slot, the new one at the back
    have hmem : ∀ h, ∀ item ∈ (s.doEnqueue config flowHash size admitted).queue h,
        item ∈ s.queue h ∨ h = s.slot config f ∧ item = ⟨s.arrivals, f, size⟩ := by
      intro h item hitem
      by_cases hh : h = s.slot config f
      · rw [hh, hjoins.same, List.mem_append, List.mem_singleton] at hitem
        rw [hh]
        exact hitem.imp id fun heq => ⟨rfl, heq⟩
      · rw [hjoins.other h hh] at hitem
        exact .inl hitem
    constructor
    · intro h
      by_cases hh : h = s.slot config f
      · rw [hh, hjoins.same]
        refine List.pairwise_append.mpr ⟨hs.sorted _, List.pairwise_singleton _ _, ?_⟩
        intro a ha b hb
        rw [List.mem_singleton.mp hb]
        exact hs.fresh _ a ha
      · rw [hjoins.other h hh]
        exact hs.sorted h
    · intro h item hitem
      rw [harr]
      cases hmem h item hitem with
      | inl hold => exact Nat.lt_succ_of_lt (hs.fresh h item hold)
      | inr hnew =>
        rw [hnew.2]
        exact Nat.lt_succ_self _
    · exact hbusy hs.busy
    · intro h item hitem
      cases hmem h item hitem with
      | inl hold => exact hs.placed h item hold
      | inr hnew =>
        rw [hnew.1, hnew.2]
        exact slot_mem hset s f

theorem Sound.next {s : FqPpp} (hs : Sound config s) {e : FqPppEvent}
    (he : (machine config).enabled s e) : Sound config ((machine config).next s e) := by
  cases e with
  | enqueue flowHash size admitted => exact hs.doEnqueue hset flowHash size admitted
  | dequeue turns =>
    obtain ⟨s', hs'⟩ := Option.isSome_iff_exists.mp he
    show Sound config ((s.doDequeue config turns).getD s)
    rw [hs']
    exact hs.of_shrinks (doDequeue_spec hs').1

theorem keeps_iff {s : FqPpp} (hs : Sound config s) (f size : ℕ) :
    Keeps config s (.enqueue (some f) size true) ↔ ∀ h, s.Waits f h → s.slot config f = h := by
  constructor
  · intro hkeeps h hwaits
    obtain ⟨item, hitem, hf⟩ := hwaits
    have hmem : h ∈ config.slots f := hf ▸ hs.placed h item hitem
    exact (slot_eq_iff hset hs.busy (List.ne_nil_of_mem hitem) hmem).mpr
      (hkeeps h ⟨item, hitem, hf⟩)
  · intro hslot h hwaits
    obtain ⟨item, hitem, hf⟩ := hwaits
    have hmem : h ∈ config.slots f := hf ▸ hs.placed h item hitem
    exact (slot_eq_iff hset hs.busy (List.ne_nil_of_mem hitem) hmem).mp
      (hslot h ⟨item, hitem, hf⟩)

end SetAssociative

theorem Waits.of_shrinks {s s' : FqPpp} (h : s.Shrinks s') {f k : ℕ} (hw : s'.Waits f k) :
    s.Waits f k := by
  obtain ⟨item, hitem, hf⟩ := hw
  exact ⟨item, (h.queue k).subset hitem, hf⟩

theorem SameSlot.of_waits {s s' : FqPpp} (hs : s.SameSlot)
    (h : ∀ f k, s'.Waits f k → s.Waits f k) : s'.SameSlot :=
  fun f i j hi hj => hs f i j (h f i hi) (h f j hj)

theorem waits_joins {s s' : FqPpp} {h : ℕ} {item : FqPppItem} (hj : s.Joins s' h item)
    (f k : ℕ) : s'.Waits f k ↔ s.Waits f k ∨ f = item.flowHash ∧ k = h := by
  by_cases hk : k = h
  · rw [hk]
    simp only [Waits, hj.same, List.mem_append, List.mem_singleton]
    constructor
    · rintro ⟨w, hw | hw, hf⟩
      · exact .inl ⟨w, hw, hf⟩
      · exact .inr ⟨by rw [← hf, hw], trivial⟩
    · rintro (⟨w, hw, hf⟩ | ⟨hf, _⟩)
      · exact ⟨w, .inl hw, hf⟩
      · exact ⟨item, .inr rfl, hf.symm⟩
  · simp only [Waits, hj.other k hk, hk, and_false, or_false]

theorem sameSlot_joins_iff {s s' : FqPpp} {h : ℕ} {item : FqPppItem} (hj : s.Joins s' h item)
    (hs : s.SameSlot) : s'.SameSlot ↔ ∀ k, s.Waits item.flowHash k → h = k := by
  constructor
  · intro hs' k hk
    apply hs' item.flowHash h k
    · exact (waits_joins hj _ _).mpr (.inr ⟨rfl, rfl⟩)
    · exact (waits_joins hj _ _).mpr (.inl hk)
  · intro hall f i k hi hk
    cases (waits_joins hj f i).mp hi with
    | inl hi =>
      cases (waits_joins hj f k).mp hk with
      | inl hk => exact hs f i k hi hk
      | inr hk => rw [hk.2, hall i (hk.1 ▸ hi)]
    | inr hi =>
      cases (waits_joins hj f k).mp hk with
      | inl hk => rw [hi.2, hall k (hi.1 ▸ hk)]
      | inr hk => rw [hi.2, hk.2]

theorem sameSlot_next_iff {config : FqPppConfig}
    (hset : config.enableSetAssociativeHash = true) {s : FqPpp} (hsound : Sound config s)
    (hs : s.SameSlot) {e : FqPppEvent} (he : (machine config).enabled s e) :
    ((machine config).next s e).SameSlot ↔ Keeps config s e := by
  cases e with
  | enqueue flowHash size admitted =>
    obtain ⟨_, _, _, hqueues⟩ := doEnqueue_spec config s flowHash size admitted
    cases hqueues with
    | inl hsame =>
      apply iff_of_true
      · apply hs.of_waits
        rintro f k ⟨item, hitem, hf⟩
        exact ⟨item, hsame.1 k ▸ hitem, hf⟩
      · cases flowHash with
        | none => trivial
        | some f =>
          rw [hsame.2 f rfl]
          trivial
    | inr hjoin =>
      obtain ⟨f, rfl, rfl, hjoins⟩ := hjoin
      exact (sameSlot_joins_iff hjoins hs).trans (keeps_iff hset hsound f size).symm
  | dequeue turns =>
    obtain ⟨s', hs'⟩ := Option.isSome_iff_exists.mp he
    apply iff_of_true _ trivial
    show ((s.doDequeue config turns).getD s).SameSlot
    rw [hs']
    exact hs.of_waits fun f k => Waits.of_shrinks (doDequeue_spec hs').1

/-- What left is older than what waits of its flow. -/
structure Ahead (s : FqPpp) : Prop where
  left : s.LeftInOrder
  known : ∀ d ∈ s.departures, d.ident < s.arrivals
  ahead : ∀ d ∈ s.departures, ∀ h, ∀ w ∈ s.queue h, d.flowHash = w.flowHash → d.ident < w.ident

theorem Ahead.start : Ahead start :=
  ⟨.nil, fun _ hd => (List.not_mem_nil hd).elim, fun _ hd => (List.not_mem_nil hd).elim⟩

theorem Ahead.of_shrinks {s s' : FqPpp} (hs : s.Ahead) (h : s.Shrinks s')
    (hdep : s'.departures = s.departures) : s'.Ahead := by
  constructor
  · rw [LeftInOrder, hdep]
    exact hs.left
  · rw [hdep, h.arrivals]
    exact hs.known
  · rw [hdep]
    intro d hd k w hw
    exact hs.ahead d hd k w ((h.queue k).subset hw)

theorem Ahead.of_leaves {config : FqPppConfig} {s s' : FqPpp} {h : ℕ} {item : FqPppItem}
    (hs : s.Ahead) (hsound : Sound config s) (hsame : s.SameSlot) (hl : s.Leaves s' h item)
    (harr : s'.arrivals = s.arrivals) : s'.Ahead := by
  have hitem : item ∈ s.queue h := hl.queue.subset List.mem_cons_self
  constructor
  · rw [LeftInOrder, hl.departures]
    refine List.pairwise_append.mpr ⟨hs.left, List.pairwise_singleton _ _, ?_⟩
    intro d hd w hw
    rw [List.mem_singleton.mp hw]
    exact hs.ahead d hd h item hitem
  · intro d hd
    rw [hl.departures, List.mem_append, List.mem_singleton] at hd
    rw [harr]
    cases hd with
    | inl hd => exact hs.known d hd
    | inr hd =>
      rw [hd]
      exact hsound.fresh h item hitem
  · intro d hd k w hw hf
    rw [hl.departures, List.mem_append, List.mem_singleton] at hd
    have hold : w ∈ s.queue k := by
      by_cases hk : k = h
      · rw [hk] at hw ⊢
        exact hl.queue.subset (List.mem_cons_of_mem item hw)
      · rwa [hl.other k hk] at hw
    cases hd with
    | inl hd => exact hs.ahead d hd k w hold hf
    | inr hd =>
      rw [hd] at hf ⊢
      -- the flow waits in one slot, so `w` stood behind the packet that leaves
      obtain rfl : h = k := hsame item.flowHash h k ⟨item, hitem, rfl⟩ ⟨w, hold, hf.symm⟩
      have hsorted := (hsound.sorted h).sublist hl.queue.sublist
      exact (List.pairwise_cons.mp hsorted).1 w hw

theorem Ahead.doEnqueue {config : FqPppConfig} {s : FqPpp} (hs : s.Ahead)
    (flowHash : Option ℕ) (size : ℕ) (admitted : Bool) :
    (s.doEnqueue config flowHash size admitted).Ahead := by
  obtain ⟨hdep, harr, _, hqueues⟩ := doEnqueue_spec config s flowHash size admitted
  constructor
  · rw [LeftInOrder, hdep]
    exact hs.left
  · rw [hdep, harr]
    intro d hd
    exact Nat.lt_succ_of_lt (hs.known d hd)
  · rw [hdep]
    intro d hd k w hw hf
    cases hqueues with
    | inl hsame =>
      rw [hsame.1 k] at hw
      exact hs.ahead d hd k w hw hf
    | inr hjoin =>
      obtain ⟨f, _, _, hjoins⟩ := hjoin
      by_cases hk : k = s.slot config f
      · rw [hk, hjoins.same, List.mem_append, List.mem_singleton] at hw
        cases hw with
        | inl hw => exact hs.ahead d hd _ w hw hf
        | inr hw =>
          rw [hw]
          exact hs.known d hd
      · rw [hjoins.other k hk] at hw
        exact hs.ahead d hd k w hw hf

theorem Ahead.next {config : FqPppConfig} {s : FqPpp} (hs : s.Ahead)
    (hsound : Sound config s) (hsame : s.SameSlot) {e : FqPppEvent}
    (he : (machine config).enabled s e) : ((machine config).next s e).Ahead := by
  cases e with
  | enqueue flowHash size admitted => exact hs.doEnqueue flowHash size admitted
  | dequeue turns =>
    obtain ⟨s', hs'⟩ := Option.isSome_iff_exists.mp he
    show ((s.doDequeue config turns).getD s).Ahead
    rw [hs']
    obtain ⟨hshrinks, hleft⟩ := doDequeue_spec hs'
    cases hleft with
    | inl hnone => exact hs.of_shrinks hshrinks hnone
    | inr hsome =>
      obtain ⟨t, h, item, hst, hdep, hleaves⟩ := hsome
      have hsameT : t.SameSlot := hsame.of_waits fun f k => Waits.of_shrinks hst
      exact (hs.of_shrinks hst hdep).of_leaves (hsound.of_shrinks hst) hsameT hleaves
        (hshrinks.arrivals.trans hst.arrivals.symm)

theorem Reaches.leftInOrder {config : FqPppConfig}
    (hset : config.enableSetAssociativeHash = true) {es : List FqPppEvent} {s : FqPpp}
    (h : ((machine config).restrict (Keeps config)).Reaches start es s) : s.LeftInOrder := by
  have hall : Sound config s ∧ s.SameSlot ∧ s.Ahead := by
    apply h.invariant (P := fun s => Sound config s ∧ s.SameSlot ∧ s.Ahead)
    · refine ⟨Sound.start, ?_, Ahead.start⟩
      rintro f h k ⟨item, hitem, _⟩
      cases hitem
    · rintro s e ⟨hsound, hsame, hahead⟩ ⟨he, hkeeps⟩
      exact ⟨hsound.next hset he, (sameSlot_next_iff hset hsound hsame he).mpr hkeeps,
        hahead.next hsound hsame he⟩
  exact hall.2.2.left

theorem order_kept_iff {config : FqPppConfig} (hset : config.enableSetAssociativeHash = true)
    {es : List FqPppEvent} (hes : (machine config).Permits start es) :
    (∀ done, done <+: es → ((machine config).exec start done).SameSlot ∧
      ((machine config).exec start done).LeftInOrder) ↔
    ((machine config).restrict (Keeps config)).Permits start es := by
  have hstart : start.SameSlot := by
    rintro f h k ⟨item, hitem, _⟩
    cases hitem
  have hiff := hes.restrict_iff (C := Keeps config) (P := SameSlot) (Q := Sound config)
    (fun s e hs he => hs.next hset he)
    (fun s e hsound hs he => sameSlot_next_iff hset hsound hs he) Sound.start hstart
  constructor
  · intro h
    exact hiff.mpr fun done hdone => (h done hdone).1
  · intro h done hdone
    exact ⟨hiff.mp h done hdone, Reaches.leftInOrder hset (h.of_prefix hdone).reaches⟩

def twoSlots : FqPppConfig where
  flows := 2
  setWays := 2
  enableSetAssociativeHash := true
  quantum := 100
  flows_pos := by decide
  setWays_pos := by decide
  quantum_pos := by decide
  flows_lt := by decide
  setWays_dvd := by decide

/-- A packet in slot 0 and three of another flow in slot 1; slot 0 falls inactive while one of the
three waits, so the next packet of their flow goes to slot 0 and is served first. -/
def slotFreed : List FqPppEvent :=
  [.enqueue (some 0) 100 true, .enqueue (some 2) 100 true, .enqueue (some 2) 100 true,
    .enqueue (some 2) 100 true, .dequeue [0], .dequeue [0, 0], .dequeue [0, 0, 0],
    .enqueue (some 2) 100 true, .dequeue [0], .dequeue [0, 0, 0, 0]]

theorem order_kept_slotFreed :
    (∀ done, done <+: slotFreed → ((machine twoSlots).exec start done).SameSlot ∧
      ((machine twoSlots).exec start done).LeftInOrder) ↔
    ((machine twoSlots).restrict (Keeps twoSlots)).Permits start slotFreed :=
  order_kept_iff rfl (by decide)

theorem flow_reordered :
    ¬ ∀ (config : FqPppConfig) (es : List FqPppEvent), config.enableSetAssociativeHash = true →
      (machine config).Permits start es →
      (∀ f h k, ((machine config).exec start es).Waits f h →
        ((machine config).exec start es).Waits f k → h = k) ∧
      ((machine config).exec start es).LeftInOrder := by
  intro hall
  have hleft := (hall twoSlots slotFreed rfl (by decide)).2
  revert hleft
  unfold LeftInOrder
  decide

end FqPpp
end NetGymSim.Gma

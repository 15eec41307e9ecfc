import Mathlib.Algebra.Order.Ring.Abs
import Mathlib.Tactic.Ring
import NetGymSim.TrafficControl.FqCoDelRuns

/-!
# Byte fairness of `FqCoDelQueueDisc`

What a class was served and its deficit together grow by a quantum with each refill. Two classes
that stay backlogged in the old list are refilled in turn, so that they are served alike up to the
range of their deficits and one quantum.
-/

namespace NetGymSim.TrafficControl
open NetGymSim.Lib
open NetGymSim.Gma (FqPppConfig FlowStatus FqPppFlow FqPppItem FqPpp)

namespace FqCoDel
variable {config : FqCoDelConfig} {maxPacket : ℕ} {s s' t : FqCoDel} {h i j k : ℕ}
variable {flow : FqCoDelFlow} {qd : CoDel} {item : QueueDiscItem}

section Scheduling

def Within (config : FqCoDelConfig) (maxPacket : ℕ) (s : FqCoDel) : Prop :=
  ∀ h, -(maxPacket : ℤ) ≤ (s.flow h).deficit ∧ (s.flow h).deficit ≤ config.quantum

structure Scheduled (config : FqCoDelConfig) (maxPacket : ℕ) (s : FqCoDel) : Prop where
  sound : s.Sound maxPacket
  listed : s.view.Listed
  within : s.Within config maxPacket
  quantum : config.quantum < 2147483648
  packet : maxPacket < 2147483648

theorem Scheduled.start (hquantum : config.quantum < 2147483648)
    (hpacket : maxPacket < 2147483648) : Scheduled config maxPacket {} where
  sound := Sound.start maxPacket
  listed := Gma.FqPpp.Listed.start
  within _ := ⟨Int.neg_nonpos_of_nonneg (Int.natCast_nonneg _), Int.natCast_nonneg _⟩
  quantum := hquantum
  packet := hpacket

theorem Within.replace (hw : s.Within config maxPacket) (hr : s.Replaces s' h flow)
    (hflow : -(maxPacket : ℤ) ≤ flow.deficit ∧ flow.deficit ≤ config.quantum) :
    s'.Within config maxPacket := by
  intro i
  by_cases hi : i = h
  · rw [hi, hr.same]
    exact hflow
  · rw [hr.other i hi]
    exact hw i

theorem Scheduled.small (hs : s.Scheduled config maxPacket) : s.view.Small := by
  have hquantum := hs.quantum
  have hpacket := hs.packet
  constructor
  · intro h
    have hdeficit := hs.within h
    rw [view_flow, FqCoDelFlow.view]
    dsimp only
    omega
  · intro h item hitem
    rw [view_queue] at hitem
    obtain ⟨packet, hpacket', rfl⟩ := List.mem_map.mp hitem
    have hsize := hs.sound.sizes h packet hpacket'
    dsimp only
    omega

theorem TurnCase.within {r : Turn FqCoDel} (hr : TurnCase config s r)
    (hs : s.Scheduled config maxPacket) :
    match r with
    | .again s' | .done s' => s'.Within config maxPacket := by
  have hquantum := hs.quantum
  have hpacket := hs.packet
  cases hr with
  | idle => exact hs.within
  | refill s' h rest status hlists hd hstatus hreplace =>
    have hdeficit := hs.within h
    apply hs.within.replace hreplace
    dsimp only
    rw [Gma.FqPpp.int32_of_range (by omega)]
    omega
  | toOld s' h rest qd hnew hd hempty hqueue hsound hreplace =>
    exact hs.within.replace hreplace (hs.within h)
  | leave s' h rest qd hnew hold hd hempty hqueue hsound hreplace =>
    exact hs.within.replace hreplace (hs.within h)
  | send s' h rest qd item hlists hd htook hreplace =>
    have hdeficit := hs.within h
    have hsize := (htook.sizes (P := fun n => 0 < n ∧ n ≤ maxPacket) (hs.sound.sizes h)).1
    apply hs.within.replace hreplace
    dsimp only
    rw [Gma.FqPpp.int32_of_range (by omega)]
    omega

theorem TurnCase.viewed {r : Turn FqCoDel} (hr : TurnCase config s r)
    (hs : s.Scheduled config maxPacket) :
    FqPpp.TurnCase config.toFqPppConfig s.view (viewTurn r) :=
  hr.view hs.quantum fun h item hitem => (hs.sound.sizes h item hitem).2.trans_lt hs.packet

theorem TurnCase.scheduled {r : Turn FqCoDel} (hr : TurnCase config s r)
    (hs : s.Scheduled config maxPacket) :
    match r with
    | .again s' | .done s' => s'.Scheduled config maxPacket := by
  have hlisted := Gma.FqPpp.turn_kept hs.listed hs.small hs.quantum (hr.viewed hs)
  have hsound := hr.sound hs.sound
  have hwithin := hr.within hs
  cases r with
  | again s' => exact ⟨hsound, hlisted.1, hwithin, hs.quantum, hs.packet⟩
  | done s' => exact ⟨hsound, hlisted.1, hwithin, hs.quantum, hs.packet⟩

theorem turn_isSome (hs : s.Scheduled config maxPacket) : ∃ r, s.turn config = some r := by
  have hquantum := hs.quantum
  have hpacket := hs.packet
  have hrefill : ∀ h, (s.flow h).deficit ≤ 0 →
      ∃ flow, (s.flow h).increaseDeficit config.quantum = some flow := by
    intro h hd
    have hdeficit := hs.within h
    apply Option.isSome_iff_exists.mp
    apply increaseDeficit_of_range
    rw [Gma.FqPpp.int32_of_range (by omega)]
    omega
  have hserve : ∀ h newFlows, ¬ (s.flow h).deficit ≤ 0 →
      ∃ r, s.serve config h newFlows = some r := by
    intro h newFlows hd
    have hdeficit := hs.within h
    have hmin : 0 < config.codel.minBytes := Nat.succ_pos 1499
    unfold serve
    cases CoDel.doDequeue_spec (hs.sound.discs h) hmin s.now with
    | inl hnone =>
      obtain ⟨-, qd, hdequeue, -⟩ := hnone
      rw [hdequeue]
      exact ⟨_, rfl⟩
    | inr hsome =>
      obtain ⟨item, qd, hdequeue, htook⟩ := hsome
      have hsize := (htook.sizes (P := fun n => 0 < n ∧ n ≤ maxPacket) (hs.sound.sizes h)).1
      have hincrease : (((s.setQueueDisc h qd).flow h).increaseDeficit (-item.size)).isSome := by
        apply increaseDeficit_of_range
        rw [flow_setQueueDisc_same, Gma.FqPpp.int32_of_range (by omega)]
        dsimp only
        omega
      obtain ⟨flow, hflow⟩ := Option.isSome_iff_exists.mp hincrease
      rw [hdequeue]
      dsimp only
      rw [send, hflow]
      exact ⟨_, rfl⟩
  unfold turn
  cases hnew : s.newFlows with
  | cons h rest =>
    dsimp only
    split_ifs with hd
    · obtain ⟨flow, hflow⟩ := hrefill h hd
      rw [hflow]
      exact ⟨_, rfl⟩
    · exact hserve h true hd
  | nil =>
    cases hold : s.oldFlows with
    | nil => exact ⟨_, rfl⟩
    | cons h rest =>
      dsimp only
      split_ifs with hd
      · obtain ⟨flow, hflow⟩ := hrefill h hd
        rw [hflow]
        exact ⟨_, rfl⟩
      · exact hserve h false hd

theorem doDequeue_ends (hs : s.Scheduled config maxPacket) :
    ∃ turns s', s.doDequeue config turns = some s' := by
  induction hwork : s.view.work using Nat.strong_induction_on generalizing s with
  | _ work ih =>
    obtain ⟨r, hturn⟩ := turn_isSome hs
    have hcase := turn_cases hs.sound.discs hturn
    have hkept := hcase.scheduled hs
    cases r with
    | done s' =>
      refine ⟨1, s', ?_⟩
      rw [doDequeue, hturn]
    | again t =>
      have hless := Gma.FqPpp.turn_work config.quantum_pos (hcase.viewed hs)
      obtain ⟨turns, s', hs'⟩ := ih t.view.work (hwork ▸ hless) hkept rfl
      refine ⟨turns + 1, s', ?_⟩
      rw [doDequeue, hturn]
      exact hs'

theorem TurnCase.queue (hr : TurnCase config s (.again s')) (i : ℕ) : s'.queue i = s.queue i := by
  have hreplaced : ∀ {h flow}, s.Replaces s' h flow → flow.queueDisc.queue = s.queue h →
      s'.queue i = s.queue i := by
    intro h flow hreplace hqueue
    by_cases hi : i = h
    · rw [hi, FqCoDel.queue, hreplace.same, hqueue]
    · rw [FqCoDel.queue, hreplace.other i hi]
      rfl
  cases hr with
  | refill _ h rest status hlists hd hstatus hreplace => exact hreplaced hreplace rfl
  | toOld _ h rest qd hnew hd hempty hqueue hsound hreplace =>
    exact hreplaced hreplace (hqueue.trans hempty.symm)
  | leave _ h rest qd hnew hold hd hempty hqueue hsound hreplace =>
    exact hreplaced hreplace (hqueue.trans hempty.symm)

theorem TurnCase.departures (hr : TurnCase config s (.again s')) :
    s'.departures = s.departures := by
  cases hr with
  | refill _ _ _ _ _ _ _ _ _ _ hdep => exact hdep
  | toOld _ _ _ _ _ _ _ _ _ _ _ _ hdep => exact hdep
  | leave _ _ _ _ _ _ _ _ _ _ _ _ _ hdep => exact hdep

theorem Scheduled.doDequeue {turns : ℕ} (hs : s.Scheduled config maxPacket)
    (hturns : s.doDequeue config turns = some s') :
    s'.Scheduled config maxPacket ∧ (s'.departures = s.departures → ∀ h, s.queue h = []) := by
  apply doDequeue_rule
    (P := fun t => t.Scheduled config maxPacket ∧ t.departures = s.departures ∧
      ∀ h, t.queue h = s.queue h)
    (Q := fun t => t.Scheduled config maxPacket ∧
      (t.departures = s.departures → ∀ h, s.queue h = [])) _ _ ⟨hs, rfl, fun _ => rfl⟩ hturns
  · intro t t' ht hturn
    have hcase := turn_cases ht.1.sound.discs hturn
    refine ⟨hcase.scheduled ht.1, hcase.departures.trans ht.2.1, fun h => ?_⟩
    rw [hcase.queue, ht.2.2]
  · intro t t' ht hturn
    have hcase := turn_cases ht.1.sound.discs hturn
    refine ⟨hcase.scheduled ht.1, fun hdep h => ?_⟩
    cases hcase with
    | idle hnew hold =>
      by_contra hne
      rw [← ht.2.2, ← view_queue_eq_nil] at hne
      have hmem := (ht.1.listed.active h).mp (ht.1.listed.busy h hne)
      have hlists : t.view.newFlows ++ t.view.oldFlows = [] := by
        show t.newFlows ++ t.oldFlows = []
        rw [hnew, hold, List.nil_append]
      rw [hlists] at hmem
      exact List.not_mem_nil hmem
    | send _ _ _ _ _ _ _ _ _ _ _ hdep' =>
      rw [hdep, ht.2.1, List.self_eq_append_right] at hdep'
      cases hdep'

end Scheduling

section Arrivals

/-- What an arrival leaves alone: the old list, and the deficits of the active classes. -/
structure Frames (s s' : FqCoDel) : Prop where
  oldFlows : s'.oldFlows = s.oldFlows
  departures : s'.departures = s.departures
  deficit : ∀ i, (s.flow i).status ≠ .inactive →
    (s'.flow i).deficit = (s.flow i).deficit ∧ (s'.flow i).status ≠ .inactive

theorem Frames.trans {u : FqCoDel} (hst : s.Frames t) (htu : t.Frames u) : s.Frames u where
  oldFlows := htu.oldFlows.trans hst.oldFlows
  departures := htu.departures.trans hst.departures
  deficit i hi := by
    obtain ⟨hdeficit, hactive⟩ := hst.deficit i hi
    obtain ⟨hdeficit', hactive'⟩ := htu.deficit i hactive
    exact ⟨hdeficit'.trans hdeficit, hactive'⟩

theorem Frames.of_flow (hflow : ∀ i, s'.flow i = s.flow i) (hold : s'.oldFlows = s.oldFlows)
    (hdep : s'.departures = s.departures) : s.Frames s' where
  oldFlows := hold
  departures := hdep
  deficit i hi := by
    rw [hflow]
    exact ⟨rfl, hi⟩

theorem Frames.of_replaces (hr : s.Replaces s' h { s.flow h with queueDisc := qd })
    (hold : s'.oldFlows = s.oldFlows) (hdep : s'.departures = s.departures) : s.Frames s' where
  oldFlows := hold
  departures := hdep
  deficit i hi := by
    by_cases heq : i = h
    · rw [heq] at hi ⊢
      rw [hr.same]
      exact ⟨rfl, hi⟩
    · rw [hr.other i heq]
      exact ⟨rfl, hi⟩

theorem view_status (s : FqCoDel) (i : ℕ) : (s.view.flow i).status = (s.flow i).status := by
  rw [view_flow]
  rfl

theorem listed_congr {t : FqPpp} (ht : t.Listed) (hnew : s'.newFlows = t.newFlows)
    (hold : s'.oldFlows = t.oldFlows) (hstatus : ∀ i, (s'.flow i).status = (t.flow i).status)
    (hqueue : ∀ i, s'.queue i ≠ [] → t.queue i ≠ [] ∨ (t.flow i).status ≠ .inactive) :
    s'.view.Listed := by
  have hlists : s'.view.newFlows ++ s'.view.oldFlows = t.newFlows ++ t.oldFlows := by
    show s'.newFlows ++ s'.oldFlows = t.newFlows ++ t.oldFlows
    rw [hnew, hold]
  refine ⟨hlists ▸ ht.nodup, fun i => ?_, fun i hne => ?_⟩
  · rw [view_status, hstatus, hlists]
    exact ht.active i
  · rw [view_status, hstatus]
    exact (hqueue i (mt view_queue_eq_nil.mpr hne)).elim (ht.busy i) id

theorem activate_frames (config : FqCoDelConfig) (s : FqCoDel) (h : ℕ) :
    s.Frames (s.activate config h) := by
  unfold FqCoDel.activate
  dsimp only
  split_ifs with hinactive
  · refine ⟨rfl, rfl, fun i hi => ?_⟩
    have hne : i ≠ h := fun heq => hi (heq ▸ hinactive)
    have hsame := flow_setFlow_other s
      { s.flow h with status := .newFlow, deficit := int32 config.quantum } hne
    exact ⟨congrArg FqCoDelFlow.deficit hsame,
      fun hlater => hi ((congrArg FqCoDelFlow.status hsame).symm.trans hlater)⟩
  · exact .of_flow (fun _ => rfl) rfl rfl

theorem Scheduled.activate (hs : s.Scheduled config maxPacket) (hmem : h ∈ s.classes) :
    (s.activate config h).Scheduled config maxPacket ∧
      ((s.activate config h).flow h).status ≠ .inactive := by
  have hquantum := hs.quantum
  obtain ⟨hsound, -⟩ := hs.sound.activate config hmem
  by_cases hinactive : (s.flow h).status = .inactive
  · have hactivate : s.activate config h =
        { s.setFlow h { s.flow h with status := .newFlow, deficit := int32 config.quantum } with
          newFlows := s.newFlows ++ [h] } := by
      rw [FqCoDel.activate, if_pos hinactive]
    have hflow : (s.activate config h).flow h =
        { s.flow h with status := .newFlow, deficit := int32 config.quantum } := by
      rw [hactivate]
      exact flow_setFlow_same s h _
    have hother : ∀ i, i ≠ h → (s.activate config h).flow i = s.flow i := by
      intro i hi
      rw [hactivate]
      exact flow_setFlow_other s _ hi
    have hview : (s.view.flow h).status = .inactive := (view_status s h).trans hinactive
    refine ⟨⟨hsound, ?_, fun i => ?_, hquantum, hs.packet⟩, ?_⟩
    · apply listed_congr (hs.listed.activate config.toFqPppConfig h)
      · rw [hactivate, Gma.FqPpp.activate, if_pos hview]
        rfl
      · rw [hactivate, Gma.FqPpp.activate, if_pos hview]
        rfl
      · intro i
        by_cases hi : i = h
        · rw [hi, hflow, Gma.FqPpp.flow_activate_same, if_pos hview]
        · rw [hother i hi, Gma.FqPpp.flow_activate_other _ _ hi, view_status]
      · intro i hne
        left
        rw [Gma.FqPpp.queue_activate, Ne, view_queue_eq_nil]
        by_cases hi : i = h
        · rw [FqCoDel.queue, hi, hflow] at hne
          rw [hi]
          exact hne
        · rw [FqCoDel.queue, hother i hi] at hne
          exact hne
    · by_cases hi : i = h
      · rw [hi, hflow, Gma.FqPpp.int32_of_range (by omega)]
        dsimp only
        omega
      · rw [hother i hi]
        exact hs.within i
    · rw [hflow]
      rintro ⟨⟩
  · have hactivate : s.activate config h = s := by
      rw [FqCoDel.activate, if_neg hinactive]
    rw [hactivate]
    exact ⟨hs, hinactive⟩

theorem Scheduled.replace (hs : s.Scheduled config maxPacket) (hsound : s'.Sound maxPacket)
    (hr : s.Replaces s' h { s.flow h with queueDisc := qd }) (hnew : s'.newFlows = s.newFlows)
    (hold : s'.oldFlows = s.oldFlows)
    (hqueue : qd.queue ≠ [] → s.queue h ≠ [] ∨ (s.flow h).status ≠ .inactive) :
    s'.Scheduled config maxPacket := by
  refine ⟨hsound, ?_, hs.within.replace hr (hs.within h), hs.quantum, hs.packet⟩
  apply listed_congr hs.listed hnew hold
  · intro i
    rw [view_status]
    by_cases hi : i = h
    · rw [hi, hr.same]
    · rw [hr.other i hi]
  · intro i hne
    rw [Ne, view_queue_eq_nil, view_status]
    by_cases hi : i = h
    · rw [FqCoDel.queue, hi, hr.same] at hne
      rw [hi]
      exact hqueue hne
    · rw [FqCoDel.queue, hr.other i hi] at hne
      exact .inl hne

theorem Scheduled.congr (hs : s.Scheduled config maxPacket) (hsound : s'.Sound maxPacket)
    (hflow : ∀ i, s'.flow i = s.flow i) (hnew : s'.newFlows = s.newFlows)
    (hold : s'.oldFlows = s.oldFlows) : s'.Scheduled config maxPacket := by
  refine ⟨hsound, ?_, fun i => ?_, hs.quantum, hs.packet⟩
  · apply listed_congr hs.listed hnew hold
    · intro i
      rw [view_status, hflow]
    · intro i hne
      left
      rw [Ne, view_queue_eq_nil]
      rw [FqCoDel.queue, hflow] at hne
      exact hne
  · rw [hflow]
    exact hs.within i

theorem Scheduled.place (hs : s.Scheduled config maxPacket) (flowHash : ℕ)
    (hitem : 0 < item.size ∧ item.size ≤ maxPacket) :
    (s.place config flowHash item).Scheduled config maxPacket ∧
      s.Frames (s.place config flowHash item) := by
  let h := (s.classify config flowHash).1
  let looked := (s.classify config flowHash).2
  let active := (looked.create h).activate config h
  obtain ⟨tags, htags⟩ := classify_spec config s flowHash
  have hlooked : looked.Scheduled config maxPacket ∧ s.Frames looked := by
    show (s.classify config flowHash).2.Scheduled config maxPacket ∧
      s.Frames (s.classify config flowHash).2
    rw [htags]
    have hsound : ({ s with tags } : FqCoDel).Sound maxPacket :=
      ⟨hs.sound.discs, hs.sound.nodup, hs.sound.created, hs.sound.listed, hs.sound.packets,
        hs.sound.sizes⟩
    exact ⟨hs.congr hsound (fun _ => rfl) rfl rfl, .of_flow (fun _ => rfl) rfl rfl⟩
  obtain ⟨hsound, hmem⟩ := hlooked.1.sound.create h
  obtain ⟨hnew, hold⟩ := create_lists looked h
  have hcreated := hlooked.1.congr hsound (create_flow looked h) hnew hold
  have hdep : (looked.create h).departures = looked.departures := by
    unfold FqCoDel.create
    cases looked.flowsIndices h with
    | none => rfl
    | some flow => rfl
  obtain ⟨hactive, hstatus⟩ := hcreated.activate hmem
  have hmem' : h ∈ active.classes := by
    obtain ⟨-, hclasses⟩ := hsound.activate config hmem
    exact hclasses ▸ hmem
  have hreplaces := append_replaces config active h item
  refine ⟨hactive.replace (hactive.sound.append hmem' hitem) hreplaces rfl rfl
    fun _ => .inr hstatus, ?_⟩
  exact ((hlooked.2.trans (.of_flow (create_flow looked h) hold hdep)).trans
    (activate_frames config _ h)).trans (.of_replaces hreplaces rfl rfl)

theorem Scheduled.doEnqueue {flowHash : Option ℕ} (hs : s.Scheduled config maxPacket)
    (hitem : 0 < item.size ∧ item.size ≤ maxPacket)
    (henqueue : s.doEnqueue config flowHash item = some s') :
    s'.Scheduled config maxPacket ∧ s.Frames s' := by
  cases flowHash with
  | none =>
    obtain rfl := Option.some.inj henqueue
    exact ⟨hs, .of_flow (fun _ => rfl) rfl rfl⟩
  | some flowHash =>
    obtain ⟨hplaced, hframes⟩ := hs.place flowHash hitem
    obtain ⟨-, hne, -⟩ := hs.sound.place config flowHash hitem
    rw [FqCoDel.doEnqueue] at henqueue
    split_ifs at henqueue with hover
    · obtain ⟨dropped, -, hdrops⟩ := fqCoDelDrop_spec hplaced.sound henqueue
      obtain ⟨qd, -, hreplaces⟩ := hdrops.replaces
      refine ⟨hplaced.replace (hplaced.sound.drops hne hdrops) hreplaces hdrops.newFlows
        hdrops.oldFlows fun hqueue => .inl ?_,
        hframes.trans (.of_replaces hreplaces hdrops.oldFlows hdrops.departures)⟩
      have hall := hdrops.queue
      intro hnil
      rw [hnil, FqCoDel.queue, hreplaces.same] at hall
      exact hqueue (List.append_eq_nil_iff.mp hall.symm).2
    · obtain rfl := Option.some.inj henqueue
      exact ⟨hplaced, hframes⟩

end Arrivals

section Fairness

def served (s : FqCoDel) (i : ℕ) : ℕ := sumAt (s.departures.map fun d => (d.1, d.2.size)) i

def Backlogged (s : FqCoDel) (i : ℕ) : Prop := i ∈ s.oldFlows ∧ s.queue i ≠ []

/-- What a class was served and may still be served before its next refill. -/
def credit (s : FqCoDel) (i : ℕ) : ℤ := s.served i + (s.flow i).deficit

def behind (s : FqCoDel) (i j : ℕ) : ℤ :=
  if s.oldFlows.find? (fun k => k = i ∨ k = j) = some j then 1 else 0

def balance (config : FqCoDelConfig) (s : FqCoDel) (i j : ℕ) : ℤ :=
  s.credit i - s.credit j - config.quantum * s.behind i j

theorem served_send (hdep : s'.departures = s.departures ++ [(h, item)]) (i : ℕ) :
    s'.served i = if h = i then s.served i + item.size else s.served i := by
  rw [served, hdep, List.map_append, List.map_singleton, sumAt_append]
  rfl

theorem served_congr (hdep : s'.departures = s.departures) (i : ℕ) : s'.served i = s.served i := by
  rw [served, hdep]
  rfl

theorem behind_le (s : FqCoDel) (i j : ℕ) : 0 ≤ s.behind i j ∧ s.behind i j ≤ 1 := by
  unfold behind
  split_ifs
  · exact ⟨Int.one_nonneg, Int.le_refl 1⟩
  · exact ⟨Int.le_refl 0, Int.one_nonneg⟩

theorem behind_append {rest : List ℕ} (hi : i ∈ s.oldFlows)
    (hold : s'.oldFlows = s.oldFlows ++ rest) : s'.behind i j = s.behind i j := by
  unfold behind
  rw [hold, List.find?_append]
  cases hfind : s.oldFlows.find? fun k => k = i ∨ k = j with
  | some k => rw [Option.some_or]
  | none =>
    have hnone := List.find?_eq_none.mp hfind i hi
    simp at hnone

theorem behind_tail {rest : List ℕ} (hi : k ≠ i) (hj : k ≠ j) (hold : s.oldFlows = k :: rest)
    (hold' : s'.oldFlows = rest) : s'.behind i j = s.behind i j := by
  unfold behind
  rw [hold, hold', List.find?_cons_of_neg]
  simp [hi, hj]

theorem behind_rotate {rest : List ℕ} (hnodup : s.oldFlows.Nodup) (hij : i ≠ j)
    (hi : i ∈ s.oldFlows) (hj : j ∈ s.oldFlows) (hold : s.oldFlows = k :: rest)
    (hold' : s'.oldFlows = rest ++ [k]) :
    s'.behind i j =
      s.behind i j + (if k = i then 1 else 0) - (if k = j then 1 else 0) := by
  -- behind the front, the other of the two is found first
  have hfind : ∀ a b, a ≠ b → a ∉ rest → b ∈ rest →
      (∀ x, x = i ∨ x = j ↔ x = a ∨ x = b) →
      (rest ++ [a]).find? (fun k => k = i ∨ k = j) = some b := by
    intro a b hab ha hb hiff
    have hsome : (rest.find? fun k => k = i ∨ k = j).isSome = true :=
      List.find?_isSome.mpr ⟨b, hb, decide_eq_true ((hiff b).mpr (.inr rfl))⟩
    obtain ⟨x, hx⟩ := Option.isSome_iff_exists.mp hsome
    have hmem := List.mem_of_find?_eq_some hx
    have hfound := List.find?_some (p := fun k => decide (k = i ∨ k = j)) hx
    have hor := (hiff x).mp (of_decide_eq_true hfound)
    have hxb : x = b := hor.resolve_left fun heq => ha (heq ▸ hmem)
    rw [List.find?_append, hx, Option.some_or, hxb]
  rw [hold] at hnodup hi hj
  obtain ⟨hk, -⟩ := List.nodup_cons.mp hnodup
  unfold behind
  rw [hold, hold']
  by_cases hki : k = i
  · rw [hki] at hk hj ⊢
    have hjrest : j ∈ rest := (List.mem_cons.mp hj).resolve_left (Ne.symm hij)
    rw [hfind i j hij hk hjrest (fun _ => Iff.rfl), List.find?_cons_of_pos (by simp), if_pos rfl,
      if_neg (by simpa using hij), if_pos rfl, if_neg hij]
    rfl
  · by_cases hkj : k = j
    · rw [hkj] at hk hi ⊢
      have hirest : i ∈ rest := (List.mem_cons.mp hi).resolve_left hij
      rw [hfind j i (Ne.symm hij) hk hirest (fun _ => or_comm),
        List.find?_cons_of_pos (by simp), if_neg (by simpa using hij), if_pos rfl,
        if_neg (Ne.symm hij), if_pos rfl]
      rfl
    · have hirest : i ∈ rest := (List.mem_cons.mp hi).resolve_left (Ne.symm hki)
      rw [List.find?_cons_of_neg (by simp [hki, hkj]), List.find?_append, if_neg hki, if_neg hkj]
      cases hfound : rest.find? fun k => k = i ∨ k = j with
      | some x =>
        rw [Option.some_or]
        omega
      | none =>
        have hnone := List.find?_eq_none.mp hfound i hirest
        simp at hnone

theorem behind_congr (hold : s'.oldFlows = s.oldFlows) (i j : ℕ) :
    s'.behind i j = s.behind i j := by
  rw [behind, hold]
  rfl

theorem credit_replace {deficit : ℤ} {status : FlowStatus}
    (hr : s.Replaces s' h ⟨deficit, status, qd⟩) (hdep : s'.departures = s.departures) (k : ℕ) :
    s'.credit k = s.credit k + if k = h then deficit - (s.flow h).deficit else 0 := by
  unfold credit
  rw [served_congr hdep]
  by_cases hk : k = h
  · rw [if_pos hk, hk, hr.same]
    dsimp only
    omega
  · rw [if_neg hk, hr.other k hk, Int.add_zero]

theorem credit_send {status : FlowStatus} (hsize : item.size < 2147483648)
    (hr : s.Replaces s' h ⟨(s.flow h).deficit + int32 (-item.size), status, qd⟩)
    (hdep : s'.departures = s.departures ++ [(h, item)]) (k : ℕ) : s'.credit k = s.credit k := by
  unfold credit
  rw [served_send hdep]
  by_cases hk : k = h
  · rw [if_pos hk.symm, hk, hr.same, Gma.FqPpp.int32_of_range (by omega)]
    dsimp only
    omega
  · rw [if_neg (Ne.symm hk), hr.other k hk]

theorem TurnCase.balance_again (hr : TurnCase config s (.again s'))
    (hs : s.Scheduled config maxPacket) (hij : i ≠ j) (hi : s.Backlogged i)
    (hj : s.Backlogged j) :
    s'.balance config i j = s.balance config i j ∧ s'.Backlogged i ∧ s'.Backlogged j := by
  have hquantum := hs.quantum
  have hqueue := hr.queue
  have hnodup : (s.newFlows ++ s.oldFlows).Nodup := hs.listed.nodup
  have hfull : ∀ {k h}, s.Backlogged k → s.queue h = [] → h ≠ k := by
    intro k h hk hempty heq
    exact hk.2 (heq ▸ hempty)
  have hkept : ∀ {k}, s.Backlogged k → k ∈ s'.oldFlows → s'.Backlogged k := by
    intro k hk hmem
    refine ⟨hmem, ?_⟩
    rw [hqueue]
    exact hk.2
  unfold balance
  cases hr with
  | refill _ h rest status hlists hd hstatus hreplace hnew' hlists' hdep =>
    have hcredit := credit_replace hreplace hdep
    rw [Gma.FqPpp.int32_of_range (by omega)] at hcredit
    cases hnew : s.newFlows with
    | nil =>
      rw [hnew, List.tail_nil] at hnew'
      rw [hnew, List.nil_append] at hlists hnodup
      rw [hnew', List.nil_append] at hlists'
      have hmem : ∀ {k}, k ∈ s.oldFlows → k ∈ s'.oldFlows := by
        intro k hk
        rw [hlists, List.mem_cons] at hk
        rw [hlists', List.mem_append, List.mem_singleton]
        exact hk.symm
      refine ⟨?_, hkept hi (hmem hi.1), hkept hj (hmem hj.1)⟩
      rw [behind_rotate hnodup hij hi.1 hj.1 hlists hlists', hcredit, hcredit]
      by_cases hhi : h = i
      · have hhj : ¬ h = j := fun heq => hij (hhi.symm.trans heq)
        rw [if_pos hhi, if_neg hhj, if_pos hhi.symm, if_neg (Ne.symm hhj)]
        ring
      · by_cases hhj : h = j
        · rw [if_neg hhi, if_pos hhj, if_neg (Ne.symm hhi), if_pos hhj.symm]
          ring
        · rw [if_neg hhi, if_neg hhj, if_neg (Ne.symm hhi), if_neg (Ne.symm hhj)]
          ring
    | cons k flows =>
      rw [hnew, List.tail_cons] at hnew'
      rw [hnew, List.cons_append] at hlists hnodup
      obtain ⟨rfl, rfl⟩ := List.cons.inj hlists
      rw [hnew', List.append_assoc] at hlists'
      have hold' : s'.oldFlows = s.oldFlows ++ [k] := List.append_cancel_left hlists'
      obtain ⟨hk, -⟩ := List.nodup_cons.mp hnodup
      have hother : ∀ {m}, m ∈ s.oldFlows → m ≠ k := by
        intro m hm heq
        exact hk (heq ▸ List.mem_append_right flows hm)
      have hmem : ∀ {m}, m ∈ s.oldFlows → m ∈ s'.oldFlows := by
        intro m hm
        rw [hold']
        exact List.mem_append_left _ hm
      refine ⟨?_, hkept hi (hmem hi.1), hkept hj (hmem hj.1)⟩
      rw [behind_append hi.1 hold', hcredit, hcredit, if_neg (hother hi.1), if_neg (hother hj.1),
        Int.add_zero, Int.add_zero]
  | toOld _ h rest qd hnew hd hempty hqd hsound hreplace hnew' hold' hdep =>
    have hcredit := credit_replace hreplace hdep
    have hmem : ∀ {m}, m ∈ s.oldFlows → m ∈ s'.oldFlows := by
      intro m hm
      rw [hold']
      exact List.mem_append_left _ hm
    refine ⟨?_, hkept hi (hmem hi.1), hkept hj (hmem hj.1)⟩
    rw [behind_append hi.1 hold', hcredit, hcredit, if_neg (hfull hi hempty).symm,
      if_neg (hfull hj hempty).symm, Int.add_zero, Int.add_zero]
  | leave _ h rest qd hnew hold hd hempty hqd hsound hreplace hnew' hold' hdep =>
    have hcredit := credit_replace hreplace hdep
    have hmem : ∀ {m}, s.Backlogged m → m ∈ s'.oldFlows := by
      intro m hm
      have hor := hm.1
      rw [hold, List.mem_cons] at hor
      rw [hold']
      exact hor.resolve_left (hfull hm hempty).symm
    refine ⟨?_, hkept hi (hmem hi), hkept hj (hmem hj)⟩
    rw [behind_tail (hfull hi hempty) (hfull hj hempty) hold hold', hcredit, hcredit,
      if_neg (hfull hi hempty).symm, if_neg (hfull hj hempty).symm, Int.add_zero, Int.add_zero]

theorem TurnCase.balance_done (hr : TurnCase config s (.done s'))
    (hs : s.Scheduled config maxPacket) :
    s'.balance config i j = s.balance config i j := by
  cases hr with
  | idle => rfl
  | send _ h rest qd item hlists hd htook hreplace hnew' hold' hdep =>
    have hsize := (htook.sizes (P := fun n => 0 < n ∧ n ≤ maxPacket) (hs.sound.sizes h)).1
    have hcredit := credit_send (hsize.2.trans_lt hs.packet) hreplace hdep
    rw [FqCoDel.balance, hcredit, hcredit, behind_congr hold']
    rfl

theorem Scheduled.balance_doDequeue {turns : ℕ} (hs : s.Scheduled config maxPacket)
    (hij : i ≠ j) (hi : s.Backlogged i) (hj : s.Backlogged j)
    (hturns : s.doDequeue config turns = some s') :
    s'.balance config i j = s.balance config i j := by
  apply doDequeue_rule
    (P := fun t => t.Scheduled config maxPacket ∧ t.balance config i j = s.balance config i j ∧
      t.Backlogged i ∧ t.Backlogged j)
    (Q := fun t => t.balance config i j = s.balance config i j) _ _ ⟨hs, rfl, hi, hj⟩ hturns
  · intro t t' ht hturn
    obtain ⟨hts, hbalance, hti, htj⟩ := ht
    have hcase := turn_cases hts.sound.discs hturn
    obtain ⟨hsame, hti', htj'⟩ := hcase.balance_again hts hij hti htj
    exact ⟨hcase.scheduled hts, hsame.trans hbalance, hti', htj'⟩
  · intro t t' ht hturn
    have hcase := turn_cases ht.1.sound.discs hturn
    exact (hcase.balance_done ht.1).trans ht.2.1

theorem Frames.balance (hf : s.Frames s') (hs : s.Scheduled config maxPacket)
    (hi : s.Backlogged i) (hj : s.Backlogged j) :
    s'.balance config i j = s.balance config i j := by
  have hcredit : ∀ {k}, s.Backlogged k → s'.credit k = s.credit k := by
    intro k hk
    have hactive : (s.flow k).status ≠ .inactive := by
      rw [← view_status]
      exact (hs.listed.active k).mpr (List.mem_append_right _ hk.1)
    unfold credit
    rw [served_congr hf.departures, (hf.deficit k hactive).1]
  unfold FqCoDel.balance
  rw [hcredit hi, hcredit hj, behind_congr hf.oldFlows]

end Fairness

section Runs

theorem Scheduled.next (hs : s.Scheduled config maxPacket) {e : FqCoDelEvent}
    (he : (machine config maxPacket).enabled s e) :
    ((machine config maxPacket).next s e).Scheduled config maxPacket ∧
      ∀ i j, i ≠ j → s.Backlogged i → s.Backlogged j →
        ((machine config maxPacket).next s e).balance config i j = s.balance config i j := by
  have hstep := step_of_enabled he
  cases e with
  | enqueue flowHash item =>
    obtain ⟨hscheduled, hframes⟩ := hs.doEnqueue (he.1 item rfl) hstep
    exact ⟨hscheduled, fun i j _ hi hj => hframes.balance hs hi hj⟩
  | dequeue turns =>
    exact ⟨(hs.doDequeue hstep).1, fun i j hij hi hj => hs.balance_doDequeue hij hi hj hstep⟩
  | wait time =>
    have hsound : ({ s with now := s.now + time } : FqCoDel).Sound maxPacket :=
      ⟨hs.sound.discs, hs.sound.nodup, hs.sound.created, hs.sound.listed, hs.sound.packets,
        hs.sound.sizes⟩
    exact ⟨hs.congr hsound (fun _ => rfl) rfl rfl, fun i j _ _ _ => rfl⟩

theorem Reaches.scheduled (hquantum : config.quantum < 2147483648)
    (hpacket : maxPacket < 2147483648) {es : List FqCoDelEvent}
    (hreach : (machine config maxPacket).Reaches {} es s) : s.Scheduled config maxPacket := by
  apply hreach.invariant (P := Scheduled config maxPacket) (Scheduled.start hquantum hpacket)
  intro t e ht he
  exact (ht.next he).1

/-- Both classes have packets in the old list whenever something happens. -/
def staysBacklogged (config : FqCoDelConfig) (maxPacket i j : ℕ) : Machine FqCoDel FqCoDelEvent :=
  (machine config maxPacket).restrict fun s _ => s.Backlogged i ∧ s.Backlogged j

/-- The deficits differ from those at the start by a quantum and a packet each, and the places in
the list by one refill. -/
theorem Scheduled.fair (hs : s.Scheduled config maxPacket) {i j : ℕ}
    {fs : List FqCoDelEvent} (hreach : (staysBacklogged config maxPacket i j).Reaches s fs s') :
    |((s'.served i : ℤ) - s.served i) - (s'.served j - s.served j)| ≤
      3 * config.quantum + 2 * maxPacket := by
  by_cases hij : i = j
  · rw [hij, Int.sub_self, abs_zero]
    omega
  · have hend : s'.Scheduled config maxPacket ∧ s'.balance config i j = s.balance config i j := by
      apply hreach.invariant
        (P := fun t => t.Scheduled config maxPacket ∧
          t.balance config i j = s.balance config i j) ⟨hs, rfl⟩
      intro t e ht he
      obtain ⟨hnext, hbalance⟩ := ht.1.next he.1
      exact ⟨hnext, (hbalance i j hij he.2.1 he.2.2).trans ht.2⟩
    obtain ⟨hs', hbalance⟩ := hend
    have hplaces : |(config.quantum : ℤ) * (s'.behind i j - s.behind i j)| ≤ config.quantum := by
      have hle := behind_le s i j
      have hle' := behind_le s' i j
      rw [abs_mul, abs_of_nonneg (Int.natCast_nonneg _)]
      apply mul_le_of_le_one_right (Int.natCast_nonneg _)
      rw [abs_le]
      omega
    have hi := hs.within i
    have hj := hs.within j
    have hi' := hs'.within i
    have hj' := hs'.within j
    have hdiff : ((s'.served i : ℤ) - s.served i) - (s'.served j - s.served j) =
        config.quantum * (s'.behind i j - s.behind i j) - (s'.flow i).deficit +
          (s.flow i).deficit + (s'.flow j).deficit - (s.flow j).deficit := by
      unfold balance credit at hbalance
      rw [mul_sub]
      omega
    rw [hdiff, abs_le]
    rw [abs_le] at hplaces
    omega

/-- In every state of every run the classes that are not inactive are in the lists, each once, as
are those with packets; `DoDequeue` returns, without a packet only when none is left; and two
classes that stay backlogged in the old list are served alike. -/
def ByteFair (config : FqCoDelConfig) : Prop :=
  ∀ maxPacket < 2147483648, ∀ es s, (machine config maxPacket).Reaches {} es s →
    (∀ h, (s.flow h).status ≠ .inactive → (s.newFlows ++ s.oldFlows).count h = 1) ∧
    (∀ h, s.queue h ≠ [] → h ∈ s.newFlows ++ s.oldFlows) ∧
    (∃ turns s', s.doDequeue config turns = some s' ∧
      (s'.departures = s.departures → ∀ h, s.queue h = [])) ∧
    ∀ i j fs s', (staysBacklogged config maxPacket i j).Reaches s fs s' →
      |((s'.served i : ℤ) - s.served i) - (s'.served j - s.served j)| ≤
        3 * config.quantum + 2 * maxPacket

structure Stuck (s : FqCoDel) : Prop where
  alone : ∃ h, s.newFlows ++ s.oldFlows = [h] ∧ (s.flow h).deficit ≤ 0
  discs : ∀ h, (s.flow h).queueDisc.Sound

theorem Stuck.turn {r : Turn FqCoDel} (hs : s.Stuck) (hlarge : 2147483648 ≤ config.quantum)
    (hturn : s.turn config = some r) : ∃ s', r = .again s' ∧ s'.Stuck := by
  obtain ⟨k, hlist, hdeficit⟩ := hs.alone
  have hquantum : int32 config.quantum = config.quantum - 4294967296 := by
    have hlt := config.quantum_lt
    unfold int32
    omega
  have hlt := config.quantum_lt
  cases turn_cases hs.discs hturn with
  | idle hnew hold =>
    rw [hnew, hold] at hlist
    cases hlist
  | refill s' h rest status hlists hd hstatus hreplace hnew' hlists' =>
    rw [hlists] at hlist
    obtain ⟨rfl, rfl⟩ := List.cons.inj hlist
    refine ⟨s', rfl, ⟨h, hlists', ?_⟩, fun i => ?_⟩
    · rw [hreplace.same, hquantum]
      dsimp only
      omega
    · by_cases hi : i = h
      · rw [hi, hreplace.same]
        exact hs.discs h
      · rw [hreplace.other i hi]
        exact hs.discs i
  | toOld s' h rest qd hnew hpos =>
    rw [hnew, List.cons_append] at hlist
    obtain ⟨rfl, -⟩ := List.cons.inj hlist
    exact absurd hdeficit (Int.not_le.mpr hpos)
  | leave s' h rest qd hnew hold hpos =>
    rw [hnew, hold, List.nil_append] at hlist
    obtain ⟨rfl, -⟩ := List.cons.inj hlist
    exact absurd hdeficit (Int.not_le.mpr hpos)
  | send s' h rest qd item hlists hpos =>
    rw [hlists] at hlist
    obtain ⟨rfl, -⟩ := List.cons.inj hlist
    exact absurd hdeficit (Int.not_le.mpr hpos)

theorem Stuck.doDequeue (hs : s.Stuck) (hlarge : 2147483648 ≤ config.quantum) (turns : ℕ) :
    s.doDequeue config turns = none := by
  cases hturns : s.doDequeue config turns with
  | none => rfl
  | some s' =>
    exfalso
    apply doDequeue_rule (P := Stuck) (Q := fun _ => False) _ _ hs hturns
    · intro t t' ht hturn
      obtain ⟨u, hu, hstuck⟩ := ht.turn hlarge hturn
      cases hu
      exact hstuck
    · intro t t' ht hturn
      obtain ⟨u, hu, -⟩ := ht.turn hlarge hturn
      cases hu

theorem Stuck.place (hlarge : 2147483648 ≤ config.quantum) :
    (place config {} 0 { size := 1 }).Stuck ∧
      (place config {} 0 { size := 1 }).nPackets ≤ config.maxSize := by
  let h := (classify config {} 0).1
  let looked := (classify config {} 0).2
  let active := (looked.create h).activate config h
  obtain ⟨tags, htags⟩ := classify_spec config {} 0
  have hlooked : looked = { ({} : FqCoDel) with tags } := htags
  obtain ⟨hnew, hold⟩ := create_lists looked h
  have hflow : (looked.create h).flow h = {} := by
    rw [create_flow, hlooked]
    rfl
  have hactivate : active = { (looked.create h).setFlow h ⟨int32 config.quantum, .newFlow, {}⟩ with
      newFlows := (looked.create h).newFlows ++ [h] } := by
    show (looked.create h).activate config h = _
    rw [FqCoDel.activate, hflow, if_pos rfl]
  have hactive : active.flow h = ⟨int32 config.quantum, .newFlow, {}⟩ := by
    rw [hactivate]
    exact flow_setFlow_same _ h _
  have hreplaces := append_replaces config active h { size := 1 }
  let packet : QueueDiscItem := { size := 1 }
  have hsize : 0 < packet.size ∧ packet.size ≤ 1 := ⟨Nat.one_pos, Nat.le_refl 1⟩
  obtain ⟨hsound, -⟩ := (Sound.start 1).place config 0 hsize
  refine ⟨⟨⟨h, ?_, ?_⟩, hsound.discs⟩, ?_⟩
  · show active.newFlows ++ active.oldFlows = [h]
    rw [hactivate]
    show (looked.create h).newFlows ++ [h] ++ (looked.create h).oldFlows = [h]
    rw [hnew, hold, hlooked]
    rfl
  · have hlt := config.quantum_lt
    show ((active.append config h { size := 1 }).flow h).deficit ≤ 0
    rw [hreplaces.same, hactive]
    dsimp only
    unfold int32
    omega
  · have hpackets := hreplaces.packets
    have hzero : active.nPackets = 0 := by
      show ((looked.create h).activate config h).nPackets = 0
      rw [activate_nPackets, create_nPackets, hlooked]
    show (active.append config h { size := 1 }).nPackets ≤ config.maxSize
    rw [hpackets, hzero, hactive]
    unfold CoDel.enqueue FqCoDelConfig.codel
    dsimp only
    split_ifs with hfull
    · exact Nat.zero_le _
    · exact Nat.not_lt.mp hfull

theorem byteFair_iff (config : FqCoDelConfig) :
    ByteFair config ↔ config.quantum < 2147483648 := by
  constructor
  · intro hall
    by_contra hlarge
    obtain ⟨hstuck, hroom⟩ := Stuck.place (Nat.not_lt.mp hlarge)
    have henqueue : doEnqueue config {} (some 0) { size := 1 } =
        some (place config {} 0 { size := 1 }) := by
      rw [FqCoDel.doEnqueue, if_neg (Nat.not_lt.mpr hroom)]
    have henabled : (machine config 1).enabled {} (.enqueue (some 0) { size := 1 }) := by
      refine ⟨fun item hitem => ?_, ?_⟩
      · obtain rfl := Option.some.inj hitem
        exact ⟨Nat.one_pos, Nat.le_refl 1⟩
      · show (doEnqueue config {} (some 0) { size := 1 }).isSome
        rw [henqueue]
        rfl
    have hreach := Machine.Reaches.nil.snoc _ henabled
    obtain ⟨-, -, ⟨turns, s', hs', -⟩, -⟩ := hall 1 (by decide) _ _ hreach
    have hnext : (machine config 1).next {} (.enqueue (some 0) { size := 1 }) =
        place config {} 0 { size := 1 } := by
      show (doEnqueue config {} (some 0) { size := 1 }).getD {} = _
      rw [henqueue, Option.getD_some]
    rw [hnext, hstuck.doDequeue (Nat.not_lt.mp hlarge)] at hs'
    cases hs'
  · intro hquantum maxPacket hpacket es s hreach
    have hs := Reaches.scheduled hquantum hpacket hreach
    refine ⟨fun h hactive => ?_, fun h hne => ?_, ?_, fun i j fs s' hfs => ?_⟩
    · rw [← view_status] at hactive
      exact List.count_eq_one_of_mem hs.listed.nodup ((hs.listed.active h).mp hactive)
    · exact (hs.listed.active h).mp (hs.listed.busy h (mt view_queue_eq_nil.mp hne))
    · obtain ⟨turns, s', hs'⟩ := doDequeue_ends hs
      exact ⟨turns, s', hs', (hs.doDequeue hs').2⟩
    · exact hs.fair hfs

end Runs

end FqCoDel
end NetGymSim.TrafficControl

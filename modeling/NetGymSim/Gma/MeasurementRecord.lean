import NetGymSim.Gma.Measurement
import NetGymSim.Lib.Machine
import NetGymSim.Lib.SerialNumber

/-!
# The records of the two measurement managers

`QosMeasurementManager` measures one link at a time and hands over a record of all links when
the measurement stops, or early when the target is violated. Its record leaves two vectors
empty that `GetTrafficSplittingDecision` asserts on. Runs are of either class, with any events
in any order.
-/

namespace NetGymSim.Gma.Measure
open NetGymSim.Lib

structure QosResult (δ : Type) where
  delay : δ
  highDelayRatio : δ
  lossRate : δ

namespace MeasurementManager
variable {δ : Type} (A : MeasureArith δ) (answer : List (Call δ) → Answer)

section Qos
variable (s : MeasurementManager δ)

def noResult : QosResult δ := ⟨A.minusOne, A.minusOne, A.minusOne⟩

def aveOwd (d : MeasureDevice δ) : δ :=
  A.ofNat (d.sumOwdPerInterval / d.numOfOwdPacketsPerInterval)

def qosRecord (cid : Cid) (result : MeasureDevice δ → QosResult δ) : RxMeasurement δ :=
  let results := s.deviceList.map fun d => if d.cid = cid then result d else noResult A
  { links := s.deviceList.length % 256
    cidList := s.deviceList.map (·.cid)
    delayList := results.map (·.delay)
    highDelayRatioList := results.map (·.highDelayRatio)
    lossRateList := results.map (·.lossRate) }

def sendTsu (decision : SplittingDecision) : MeasurementManager δ :=
  { s with tsus := s.tsus ++ [decision] }

def restartDevice (d : MeasureDevice δ) : MeasureDevice δ :=
  MeasureDevice.initialMeasurementCycle A { d with
    sumOwdPerInterval := 0
    numOfOwdPacketsPerInterval := 0
    numOfHighOwdPacketsPerInterval := 0 }

/-- A duration of 0 stands for monitoring and keeps the duration of the test. -/
def qosMeasurementStart (cid : Cid) (duration : ℕ) : MeasurementManager δ × Bool :=
  if (s.cidToQosMeasurement cid).isSome then (s, false)
  else
    let s := if duration ≠ 0 then
        { s with
          qosDuration := duration
          cidToLastPacketN := Function.update s.cidToLastPacketN cid none }
      else s
    let s := s.withDevice cid (restartDevice A)
    ({ s with cidToQosMeasurement := Function.update s.cidToQosMeasurement cid (some duration) },
      true)

def stopResult (d : MeasureDevice δ) : QosResult δ :=
  if d.numOfOwdPacketsPerInterval > 0 then
    ⟨aveOwd A d,
      A.ratio d.numOfHighOwdPacketsPerInterval (A.ofNat d.numOfOwdPacketsPerInterval),
      d.lossRate A⟩
  else noResult A

def lastPacketN (cid : Cid) (map : Cid → Option ℕ) (d : MeasureDevice δ) : Cid → Option ℕ :=
  if d.cid = cid then
    Function.update map cid
      (if d.numOfOwdPacketsPerInterval > 0 then some d.numOfOwdPacketsPerInterval else none)
  else map

/-- Monitoring goes on when the decision is no update. -/
def sendOrMonitor (cid : Cid) (duration : ℕ) (decision : SplittingDecision) :
    MeasurementManager δ :=
  if decision.update then s.sendTsu decision
  else if duration = 0 then (s.qosMeasurementStart A cid 0).1
  else s

def qosMeasurementStop (cid : Cid) : Except MeasureFault (MeasurementManager δ) :=
  match s.cidToQosMeasurement cid with
  | none => .error .notScheduled
  | some duration =>
    if 256 ≤ s.deviceList.length then .error .stillLooping
    else
      let s := { s with
        cidToQosMeasurement := Function.update s.cidToQosMeasurement cid none
        cidToLastPacketN := s.deviceList.foldl (lastPacketN cid) s.cidToLastPacketN }
      let (s, decision) := s.getTrafficSplittingDecision answer s.deviceList
        (s.qosRecord A cid (stopResult A))
      .ok (s.sendOrMonitor A cid duration decision)

def quitQosMeasurement (cid : Cid) : MeasurementManager δ :=
  { s with cidToQosMeasurement := Function.update s.cidToQosMeasurement cid none }

def highOwdRate (d : MeasureDevice δ) (packetN : ℕ) : δ :=
  let received := A.ofNat d.numOfOwdPacketsPerInterval
  A.ratio d.numOfHighOwdPacketsPerInterval
    (if A.lt (A.weigh packetN) received then received else A.weigh packetN)

def earlyDecision (d : MeasureDevice δ) (packetN : ℕ) :
    MeasurementManager δ × SplittingDecision :=
  let result := fun d => QosResult.mk (aveOwd A d) (highOwdRate A d packetN) (d.lossRate A)
  let s := { s with cidToLastPacketN := Function.update s.cidToLastPacketN d.cid none }
  s.getTrafficSplittingDecision answer s.deviceList (s.qosRecord A d.cid result)

def earlyViolation (d : MeasureDevice δ) (packetN : ℕ) :
    Except MeasureFault (MeasurementManager δ) :=
  let (s', decision) := s.earlyDecision A answer d packetN
  if d.numOfOwdPacketsPerInterval = 0 then .error .divisionByZero
  else if decision.update then .ok ((s'.sendTsu decision).quitQosMeasurement d.cid)
  else .error .noUpdate

def violationTurn (s : MeasurementManager δ) (d : MeasureDevice δ) :
    Except MeasureFault (MeasurementManager δ) :=
  match s.cidToQosMeasurement d.cid, s.cidToLastPacketN d.cid with
  | some _, some packetN =>
      if A.lt s.qosDelayViolationTarget (highOwdRate A d packetN) ∨
          A.lt s.qosLossTarget (d.lossRate A) then
        s.earlyViolation A answer d packetN
      else .ok s
  | _, _ => .ok s

/-- `MeasureIntervalEndCheck` of either class. -/
def measureIntervalEndCheck (t : ℕ) : Except MeasureFault (MeasurementManager δ) :=
  match s.kind with
  | .measurement => s.intervalEndCheck A answer t
  | .qos =>
      if 256 ≤ s.deviceList.length then .error .stillLooping
      else s.deviceList.foldlM (violationTurn A answer) s

end Qos

inductive Event (δ : Type)
  | addDevice (cid : Cid) (owdTarget queueingDelayTarget : ℕ)
  | rxControl (algorithm : RxAlgorithm) (splittingBurst : ℕ) (delayTarget lossTarget : δ)
  | disableMeasurement
  | measureIntervalStartCheck (t sn expectedSn : ℕ)
  | dataMeasurementSample (owdMs lsn : ℕ) (cid : Cid)
  | measureIntervalEndCheck (t : ℕ)
  | updateRtt (rtt owd : ℕ) (cid : Cid)
  | updateOwdFromProbe (owdMs : ℕ) (cid : Cid)
  | updateOwdFromAck (owdMs : ℕ) (cid : Cid)
  | delayedStart
  | measureCycleStartByTsa (measureStartSn delay : ℕ) (owdVector : List ℕ)
  | qosMeasurementStart (cid : Cid) (duration : ℕ)
  | qosMeasurementStop (cid : Cid)
  | quitQosMeasurement (cid : Cid)

def ifQos (s : MeasurementManager δ) (r : Except MeasureFault (MeasurementManager δ)) :
    Except MeasureFault (MeasurementManager δ) :=
  match s.kind with
  | .measurement => .error .notQos
  | .qos => r

def step (s : MeasurementManager δ) : Event δ → Except MeasureFault (MeasurementManager δ)
  | .addDevice cid owdTarget queueingDelayTarget =>
      .ok (s.addDevice A cid owdTarget queueingDelayTarget)
  | .rxControl algorithm splittingBurst qosDelayViolationTarget qosLossTarget =>
      .ok { s with algorithm, splittingBurst, qosDelayViolationTarget, qosLossTarget }
  | .disableMeasurement => .ok { s with measurementOn := false }
  | .measureIntervalStartCheck t sn expectedSn => s.measureIntervalStartCheck t sn expectedSn
  | .dataMeasurementSample owdMs lsn cid => .ok (s.dataMeasurementSample owdMs lsn cid)
  | .measureIntervalEndCheck t => s.measureIntervalEndCheck A answer t
  | .updateRtt rtt owd cid => .ok (s.updateRtt rtt owd cid)
  | .updateOwdFromProbe owdMs cid => .ok (s.updateOwdFromProbe owdMs cid)
  | .updateOwdFromAck owdMs cid => .ok (s.updateOwdFromAck owdMs cid)
  | .delayedStart => s.delayedStart
  | .measureCycleStartByTsa measureStartSn delay owdVector =>
      s.measureCycleStartByTsa A measureStartSn delay owdVector
  | .qosMeasurementStart cid duration => s.ifQos (.ok (s.qosMeasurementStart A cid duration).1)
  | .qosMeasurementStop cid => s.ifQos (s.qosMeasurementStop A answer cid)
  | .quitQosMeasurement cid => s.ifQos (.ok (s.quitQosMeasurement cid))

def machine : Machine (MeasurementManager δ) (Event δ) where
  enabled s e := (s.step A answer e).isOk
  next s e :=
    match s.step A answer e with
    | .ok s' => s'
    | .error _ => s

instance (s : MeasurementManager δ) (e : Event δ) :
    Decidable ((machine A answer).enabled s e) :=
  inferInstanceAs (Decidable (_ = true))

def PerDevice {β : Type} (devices : List (MeasureDevice δ)) (v : List β) : Prop :=
  ∃ f : MeasureDevice δ → β, v = devices.map f

structure Filled (c : Call δ) : Prop where
  links : c.record.links = c.devices.length
  pos : c.record.links ≠ 0
  cidList : c.record.cidList = c.devices.map (·.cid)
  delayThisInterval : PerDevice c.devices c.record.delayThisInterval
  delayList : PerDevice c.devices c.record.delayList
  minOwdLongTerm : PerDevice c.devices c.record.minOwdLongTerm
  lossRateList : PerDevice c.devices c.record.lossRateList
  highDelayRatioList : c.algorithm = .qosSteer → PerDevice c.devices c.record.highDelayRatioList
  delayViolationPktNumList : c.algorithm = .gma2 → c.splittingBurst ≠ 1 →
    PerDevice c.devices c.record.delayViolationPktNumList
  totalPktNumList : c.algorithm = .gma2 → c.splittingBurst ≠ 1 →
    PerDevice c.devices c.record.totalPktNumList

theorem PerDevice.length_eq {β : Type} {devices : List (MeasureDevice δ)} {v : List β}
    (h : PerDevice devices v) : v.length = devices.length := by
  obtain ⟨f, rfl⟩ := h
  rw [List.length_map]

theorem PerDevice.not_nil {β : Type} {devices : List (MeasureDevice δ)} (h : devices ≠ []) :
    ¬ PerDevice devices ([] : List β) := by
  intro hnil
  exact h (List.length_eq_zero_iff.mp hnil.length_eq.symm)

def Complete (kind : ManagerKind) (c : Call δ) : Prop :=
  kind = .measurement ∧ c.devices ≠ [] ∧ c.algorithm ≠ .qosSteer

structure Extends (s s' : MeasurementManager δ) : Prop where
  kind : s'.kind = s.kind
  calls : ∃ new, s'.calls = s.calls ++ new ∧ ∀ c ∈ new, Filled c ↔ Complete s.kind c

theorem Extends.silent {s s' : MeasurementManager δ} (hkind : s'.kind = s.kind)
    (hcalls : s'.calls = s.calls) : Extends s s' :=
  ⟨hkind, [], by rw [hcalls, List.append_nil], by simp⟩

theorem Extends.trans {s t u : MeasurementManager δ} (h : Extends s t) (h' : Extends t u) :
    Extends s u := by
  obtain ⟨new, hnew, hfilled⟩ := h.calls
  obtain ⟨more, hmore, hfilled'⟩ := h'.calls
  refine ⟨h'.kind.trans h.kind, new ++ more, by rw [hmore, hnew, List.append_assoc], ?_⟩
  intro c hc
  rcases List.mem_append.mp hc with hc | hc
  · exact hfilled c hc
  · rw [hfilled' c hc, h.kind]

theorem Extends.of_call {s s' : MeasurementManager δ} {c : Call δ} (hkind : s'.kind = s.kind)
    (hcalls : s'.calls = s.calls ++ [c]) (hc : Filled c ↔ Complete s.kind c) : Extends s s' :=
  ⟨hkind, [c], hcalls, fun _ hd => List.mem_singleton.mp hd ▸ hc⟩

section Silent
variable {A} {s s' : MeasurementManager δ}

theorem measureIntervalStart_extends {t : ℕ} (h : s.measureIntervalStart t = .ok s') :
    Extends s s' := by
  simp only [measureIntervalStart, bind_eq_ok] at h
  obtain ⟨⟨⟩, -, rtt, -, h⟩ := h
  cases pure_eq_ok.mp h
  exact .silent rfl rfl

theorem measureIntervalStartCheck_extends {t sn expectedSn : ℕ}
    (h : s.measureIntervalStartCheck t sn expectedSn = .ok s') : Extends s s' := by
  simp only [measureIntervalStartCheck] at h
  split_ifs at h
  · cases h
    exact .silent rfl rfl
  · have hlast : Extends s { s with lastIntervalStartSn := sn } := .silent rfl rfl
    exact hlast.trans (measureIntervalStart_extends h)
  all_goals
    cases h
    exact .silent rfl rfl

theorem delayedStart_extends (h : s.delayedStart = .ok s') : Extends s s' := by
  unfold delayedStart at h
  split at h
  · cases h
  · have hevent : Extends s { s with delayMeasurementEvent := none } := .silent rfl rfl
    exact hevent.trans (measureIntervalStart_extends h)

theorem measureCycleStartByTsa_extends {measureStartSn delay : ℕ} {owdVector : List ℕ}
    (h : s.measureCycleStartByTsa A measureStartSn delay owdVector = .ok s') : Extends s s' := by
  simp only [measureCycleStartByTsa] at h
  split_ifs at h <;> cases h <;> exact .silent rfl rfl

theorem updateMinOwdCheck_frame (now : ℕ) :
    (s.updateMinOwdCheck now).kind = s.kind ∧ (s.updateMinOwdCheck now).calls = s.calls ∧
      (s.updateMinOwdCheck now).algorithm = s.algorithm ∧
      ∃ f : MeasureDevice δ → MeasureDevice δ, (∀ d, (f d).cid = d.cid) ∧
        (s.updateMinOwdCheck now).deviceList = s.deviceList.map f := by
  unfold updateMinOwdCheck
  split_ifs
  · exact ⟨rfl, rfl, rfl, MeasureDevice.updateAllMinOwd, fun _ => rfl, rfl⟩
  · exact ⟨rfl, rfl, rfl, id, fun _ => rfl, (List.map_id _).symm⟩

theorem feedbackMinOwd_extends {decision decision' : SplittingDecision}
    (h : s.feedbackMinOwd decision = .ok (s', decision')) : Extends s s' := by
  simp only [feedbackMinOwd] at h
  split_ifs at h <;> cases h <;> exact .silent rfl rfl

theorem sendOrRestart_extends (decision : SplittingDecision) :
    Extends s (s.sendOrRestart A decision) := by
  unfold sendOrRestart
  split_ifs
  · exact .silent rfl rfl
  · exact .silent rfl rfl

theorem qosMeasurementStart_extends (cid : Cid) (duration : ℕ) :
    Extends s (s.qosMeasurementStart A cid duration).1 := by
  simp only [qosMeasurementStart]
  split_ifs <;> exact .silent rfl rfl

theorem sendOrMonitor_extends (cid : Cid) (duration : ℕ) (decision : SplittingDecision) :
    Extends s (s.sendOrMonitor A cid duration decision) := by
  unfold sendOrMonitor
  split_ifs
  · exact .silent rfl rfl
  · exact qosMeasurementStart_extends cid 0
  · exact .silent rfl rfl

end Silent

section Calls
variable {A answer} {s s' : MeasurementManager δ}

theorem rxMeasurement_filled {measured : List (MeasureDevice δ)} {received : List Bool}
    {algorithm : RxAlgorithm} {splittingBurst : ℕ} (hlt : measured.length < 256)
    (hreceived : PerDevice measured received)
    (hdevices : ∃ f : MeasureDevice δ → MeasureDevice δ, (∀ d, (f d).cid = d.cid) ∧
      s.deviceList = measured.map f) :
    Filled ⟨measured, algorithm, splittingBurst, s.rxMeasurement A received⟩ ↔
      measured ≠ [] ∧ algorithm ≠ .qosSteer := by
  obtain ⟨f, hcid, hdevices⟩ := hdevices
  have hlinks : s.deviceList.length % 256 = measured.length := by
    rw [hdevices, List.length_map, Nat.mod_eq_of_lt hlt]
  have hper : ∀ {β : Type} (g : MeasureDevice δ → β), PerDevice measured (s.deviceList.map g) :=
    fun g => ⟨g ∘ f, by rw [hdevices, List.map_map]⟩
  constructor
  · intro h
    have hne : measured ≠ [] := by
      rintro rfl
      exact h.pos h.links
    exact ⟨hne, fun halgorithm => PerDevice.not_nil hne (h.highDelayRatioList halgorithm)⟩
  · rintro ⟨hne, halgorithm⟩
    exact {
      links := hlinks
      pos := by
        intro hzero
        exact hne (List.length_eq_zero_iff.mp (hlinks.symm.trans hzero))
      cidList := by
        change s.deviceList.map _ = _
        rw [hdevices, List.map_map]
        exact List.map_congr_left fun d _ => hcid d
      delayThisInterval := hreceived
      delayList := hper _
      minOwdLongTerm := hper _
      lossRateList := hper _
      highDelayRatioList := fun h => absurd h halgorithm
      delayViolationPktNumList := fun _ _ => hper _
      totalPktNumList := fun _ _ => hper _ }

theorem qosRecord_not_filled {measured : List (MeasureDevice δ)} {algorithm : RxAlgorithm}
    {splittingBurst : ℕ} {cid : Cid} {result : MeasureDevice δ → QosResult δ} :
    ¬ Filled ⟨measured, algorithm, splittingBurst, s.qosRecord A cid result⟩ := by
  intro h
  have hnil : measured = [] := by
    by_contra hne
    exact PerDevice.not_nil hne h.delayThisInterval
  subst hnil
  exact h.pos h.links

theorem endCycle_extends {now : ℕ} (hkind : s.kind = .measurement)
    (hlt : s.deviceList.length < 256) (h : s.endCycle A answer now = .ok s') : Extends s s' := by
  simp only [endCycle, bind_eq_ok] at h
  obtain ⟨⟨u, decision⟩, hfeedback, h⟩ := h
  cases pure_eq_ok.mp h
  refine Extends.trans ?_ ((feedbackMinOwd_extends hfeedback).trans (sendOrRestart_extends _))
  obtain ⟨hk, hc, -, f, hcid, hdevices⟩ := updateMinOwdCheck_frame
    (s := { s with
      measurementOn := false
      deviceList := s.deviceList.map MeasureDevice.lastKnown }) now
  refine Extends.of_call hk (congrArg (· ++ _) hc) ?_
  have hlast : ∀ d : MeasureDevice δ, d.lastKnown.cid = d.cid := by
    intro d
    unfold MeasureDevice.lastKnown
    split_ifs <;> rfl
  rw [rxMeasurement_filled hlt ⟨_, rfl⟩
    ⟨f ∘ MeasureDevice.lastKnown, fun d => (hcid _).trans (hlast d),
      hdevices.trans (List.map_map ..)⟩]
  exact ⟨fun h => ⟨hkind, h⟩, fun h => h.2⟩

theorem measureIntervalEnd_extends {t : ℕ} (hkind : s.kind = .measurement)
    (h : s.measureIntervalEnd A answer t = .ok s') : Extends s s' := by
  unfold measureIntervalEnd at h
  split_ifs at h with hmany
  simp only [bind_eq_ok] at h
  obtain ⟨devices, hdevices, h⟩ := h
  have hlt : devices.length < 256 := by
    rw [mapM_length hdevices]
    exact Nat.lt_of_not_ge hmany
  have hclosed : Extends s { s with deviceList := devices, measureIntervalStarted := false } :=
    .silent rfl rfl
  split_ifs at h
  · exact hclosed.trans (endCycle_extends hkind hlt h)
  · exact hclosed.trans (measureIntervalStart_extends h)

theorem intervalEndCheck_extends {t : ℕ} (hkind : s.kind = .measurement)
    (h : s.intervalEndCheck A answer t = .ok s') : Extends s s' := by
  unfold intervalEndCheck at h
  have hest : Extends s (s.estimateBurst t) := by
    unfold estimateBurst
    split_ifs <;> exact .silent rfl rfl
  split_ifs at h
  · exact hest.trans (measureIntervalEnd_extends (hest.kind.trans hkind) h)
  · cases h
    exact hest
  · cases h
    exact .silent rfl rfl

theorem getTrafficSplittingDecision_extends {devices : List (MeasureDevice δ)} {cid : Cid}
    {t : MeasurementManager δ} {result : MeasureDevice δ → QosResult δ} (hkind : s.kind = .qos) :
    Extends s (s.getTrafficSplittingDecision answer devices (t.qosRecord A cid result)).1 := by
  refine Extends.of_call rfl rfl ⟨fun h => absurd h qosRecord_not_filled, fun h => ?_⟩
  rw [hkind] at h
  cases h.1

theorem qosMeasurementStop_extends {cid : Cid} (hkind : s.kind = .qos)
    (h : s.qosMeasurementStop A answer cid = .ok s') : Extends s s' := by
  unfold qosMeasurementStop at h
  split at h
  · cases h
  rename_i duration _
  split_ifs at h
  cases h
  have hcleared : Extends s { s with
      cidToQosMeasurement := Function.update s.cidToQosMeasurement cid none
      cidToLastPacketN := s.deviceList.foldl (lastPacketN cid) s.cidToLastPacketN } :=
    .silent rfl rfl
  exact (hcleared.trans (getTrafficSplittingDecision_extends hkind)).trans
    (sendOrMonitor_extends ..)

theorem earlyDecision_extends {d : MeasureDevice δ} {packetN : ℕ} (hkind : s.kind = .qos) :
    Extends s (s.earlyDecision A answer d packetN).1 := by
  have hcleared : Extends s { s with
      cidToLastPacketN := Function.update s.cidToLastPacketN d.cid none } := .silent rfl rfl
  exact hcleared.trans (getTrafficSplittingDecision_extends hkind)

theorem earlyViolation_extends {d : MeasureDevice δ} {packetN : ℕ} (hkind : s.kind = .qos)
    (h : s.earlyViolation A answer d packetN = .ok s') : Extends s s' := by
  simp only [earlyViolation] at h
  split_ifs at h
  cases h
  have hearly : Extends s (s.earlyDecision A answer d packetN).1 := earlyDecision_extends hkind
  exact hearly.trans (.silent rfl rfl)

theorem violationTurn_extends {d : MeasureDevice δ} (hkind : s.kind = .qos)
    (h : violationTurn A answer s d = .ok s') : Extends s s' := by
  unfold violationTurn at h
  split at h
  · split_ifs at h
    · exact earlyViolation_extends hkind h
    · cases h
      exact .silent rfl rfl
  · cases h
    exact .silent rfl rfl

theorem measureIntervalEndCheck_extends {t : ℕ}
    (h : s.measureIntervalEndCheck A answer t = .ok s') : Extends s s' := by
  unfold measureIntervalEndCheck at h
  cases hkind : s.kind with
  | measurement =>
    rw [hkind] at h
    exact intervalEndCheck_extends hkind h
  | qos =>
    rw [hkind] at h
    simp only at h
    split_ifs at h
    refine foldlM_inv (P := fun u _ => Extends s u) ?_ (.silent rfl rfl) h
    intro u d rest u' hu hturn
    exact hu.trans (violationTurn_extends (hu.kind.trans hkind) hturn)

theorem ifQos_extends {r : Except MeasureFault (MeasurementManager δ)}
    (hr : s.kind = .qos → r = .ok s' → Extends s s') (h : s.ifQos r = .ok s') :
    Extends s s' := by
  unfold ifQos at h
  split at h
  · cases h
  · rename_i hkind
    exact hr hkind h

theorem step_extends {e : Event δ} (h : s.step A answer e = .ok s') : Extends s s' := by
  cases e with
  | measureIntervalStartCheck t sn expectedSn => exact measureIntervalStartCheck_extends h
  | measureIntervalEndCheck t => exact measureIntervalEndCheck_extends h
  | delayedStart => exact delayedStart_extends h
  | measureCycleStartByTsa measureStartSn delay owdVector =>
    exact measureCycleStartByTsa_extends h
  | qosMeasurementStart cid duration =>
    refine ifQos_extends (fun _ hr => ?_) h
    cases hr
    exact qosMeasurementStart_extends cid duration
  | qosMeasurementStop cid =>
    exact ifQos_extends (fun hkind hr => qosMeasurementStop_extends hkind hr) h
  | quitQosMeasurement cid =>
    refine ifQos_extends (fun _ hr => ?_) h
    cases hr
    exact .silent rfl rfl
  | updateOwdFromProbe owdMs cid =>
    cases h
    unfold updateOwdFromProbe
    split <;> exact .silent rfl rfl
  | updateOwdFromAck owdMs cid =>
    cases h
    unfold updateOwdFromAck
    split <;> exact .silent rfl rfl
  | _ =>
    cases h
    exact .silent rfl rfl

/-- A record is complete exactly when it is of a measurement cycle over at least one link and
not for the QoS algorithm. -/
theorem record_filled_iff {start s : MeasurementManager δ} {es : List (Event δ)}
    (hstart : start.calls = []) (h : (machine A answer).Reaches start es s) :
    ∀ c ∈ s.calls, Filled c ↔ Complete start.kind c := by
  have hext : Extends start s := by
    refine h.invariant (P := Extends start) (.silent rfl rfl) ?_
    intro t e ht he
    change (t.step A answer e).isOk at he
    change Extends start (match t.step A answer e with
      | .ok u => u
      | .error _ => t)
    cases hstep : t.step A answer e with
    | error fault => exact ht
    | ok u => exact ht.trans (step_extends hstep)
  obtain ⟨new, hnew, hfilled⟩ := hext.calls
  intro c hc
  rw [hnew, hstart, List.nil_append] at hc
  exact hfilled c hc

end Calls

def wholeNumbers : MeasureArith ℤ where
  zero := 0
  one := 1
  minusOne := -1
  ofNat n := n
  ratio a b := a / b
  lt a b := a < b
  converged a := a < 1
  weigh n := 4 * n / 5

def created (kind : ManagerKind) (algorithm : RxAlgorithm) : MeasurementManager ℤ where
  kind
  algorithm
  splittingBurst := 1
  qosDelayViolationTarget := 1
  qosLossTarget := 1
  maxMeasureInterval := 1

def noUpdate (_ : List (Call ℤ)) : Answer := ⟨{}, 1⟩

def oneInterval : List (Event ℤ) :=
  [.addDevice 0 100 10, .addDevice 3 100 10, .measureIntervalStartCheck 0 1 1,
    .dataMeasurementSample 20 0 0, .measureIntervalEndCheck 1000000001]

theorem record_filled_iff_one_interval :
    ∃ s, (machine wholeNumbers noUpdate).Reaches (created .measurement .delay) oneInterval s ∧
      s.calls.length = 1 ∧ ∀ c ∈ s.calls, Filled c ↔ Complete .measurement c := by
  have hreach : (machine wholeNumbers noUpdate).Reaches (created .measurement .delay) oneInterval
      _ := Machine.Permits.reaches (by decide)
  exact ⟨_, hreach, by decide, record_filled_iff rfl hreach⟩

def qosTest : List (Event ℤ) :=
  [.addDevice 0 100 10, .addDevice 3 100 10, .qosMeasurementStart 3 1,
    .dataMeasurementSample 20 0 3, .qosMeasurementStop 3]

theorem qos_record_incomplete :
    ∃ s, (machine wholeNumbers noUpdate).Reaches (created .qos .qosSteer) qosTest s ∧
      ∃ c ∈ s.calls, c.devices.length = 2 ∧ ¬ Filled c ∧
        GmaRxControl.checkSizes c.record = .error .sizeMismatch := by
  have hreach : (machine wholeNumbers noUpdate).Reaches (created .qos .qosSteer) qosTest _ :=
    Machine.Permits.reaches (by decide)
  refine ⟨_, hreach, _, List.mem_singleton_self _, by decide, qosRecord_not_filled, by decide⟩

end MeasurementManager
end NetGymSim.Gma.Measure

/-!
## The losses of a measurement cycle

The packets of a link are numbered from the first one sent, and `UpdateLsn` sees the last byte of
these numbers. A late packet counts as abnormal, so that the missing packets less the abnormal ones
are the ones between the first and the highest number that have not arrived.
-/

namespace NetGymSim.Gma.Measure
open NetGymSim.Lib

def lsnOf (p : ℤ) : ℕ := residue 128 p

/-- Each packet is less than half of the LSNs away from the highest one before it. -/
def Near : ℤ → List ℤ → Prop
  | _, [] => True
  | highest, p :: rest => |p - highest| < 128 ∧ Near (max highest p) rest

def highest (first : ℤ) (rest : List ℤ) : ℤ := rest.foldl max first

theorem highest_bounds (first : ℤ) (rest : List ℤ) :
    first ≤ highest first rest ∧ ∀ p ∈ rest, p ≤ highest first rest := by
  induction rest generalizing first with
  | nil => exact ⟨le_rfl, fun p hp => absurd hp List.not_mem_nil⟩
  | cons q rest ih =>
    obtain ⟨hmax, hrest⟩ := ih (max first q)
    refine ⟨(le_max_left first q).trans hmax, fun p hp => ?_⟩
    rcases List.mem_cons.mp hp with rfl | hp
    · exact (le_max_right first p).trans hmax
    · exact hrest p hp

namespace MeasureDevice
variable {δ : Type} {d : MeasureDevice δ}

theorem lsnDiff_eq (x1 x2 : ℕ) : lsnDiff x1 x2 = wrapDiff 128 x1 x2 := rfl

/-- The accounts of a device that saw `received` packets from the number `first` on, the highest of
them being `highest`. -/
structure Accounts (first highest : ℤ) (received : ℕ) (d : MeasureDevice δ) : Prop where
  lastLsn : d.lastLsn = lsnOf highest
  arrived : d.numOfInOrderPacketsPerCycle + d.numOfAbnormalPacketsPerCycle = received
  started : 0 < received
  missed : (d.numOfMissingPacketsPerCycle : ℤ) - d.numOfAbnormalPacketsPerCycle =
    highest + 1 - first - received

theorem updateLsn_first (A : MeasureArith δ) (d : MeasureDevice δ) (first : ℤ) :
    Accounts first first 1 ((d.initialMeasurementCycle A).updateLsn (lsnOf first)) where
  lastLsn := by simp [updateLsn, initialMeasurementCycle]
  arrived := by simp [updateLsn, initialMeasurementCycle]
  started := Nat.one_pos
  missed := by simp [updateLsn, initialMeasurementCycle]

theorem Accounts.updateLsn {first highest p : ℤ} {received : ℕ}
    (h : Accounts first highest received d) (hp : |p - highest| < 128) :
    Accounts first (max highest p) (received + 1) (d.updateLsn (lsnOf p)) := by
  obtain ⟨hlo, hhi⟩ := abs_lt.mp hp
  have hdiff : lsnDiff (lsnOf p) d.lastLsn = p - highest := by
    rw [h.lastLsn, lsnDiff_eq]
    exact wrapDiff_residue (by decide) hlo hhi
  have hstarted := h.started
  have harrived := h.arrived
  have hmissed := h.missed
  unfold MeasureDevice.updateLsn
  simp only [hdiff]
  split_ifs with hnext hgap
  · have hone : p = highest + 1 := by omega
    have hmax : max highest p = p := max_eq_right (by omega)
    exact ⟨congrArg lsnOf hmax.symm, by simp only; omega, by omega, by simp only; omega⟩
  · have hmax : max highest p = p := max_eq_right (by omega)
    exact ⟨congrArg lsnOf hmax.symm, by simp only; omega, by omega, by simp only; omega⟩
  · have hmax : max highest p = highest := max_eq_left (by omega)
    exact ⟨by rw [hmax, h.lastLsn], by simp only; omega, by omega, by simp only; omega⟩

theorem Accounts.foldl {first highest : ℤ} {received : ℕ} {packets : List ℤ}
    (h : Accounts first highest received d) (hnear : Near highest packets) :
    Accounts first (Measure.highest highest packets) (received + packets.length)
      (packets.foldl (fun d p => d.updateLsn (lsnOf p)) d) := by
  induction packets generalizing d highest received with
  | nil => exact h
  | cons p packets ih =>
    have hstep := h.updateLsn hnear.1
    have hrest := ih hstep hnear.2
    rw [Nat.add_right_comm, Nat.add_assoc] at hrest
    exact hrest

end MeasureDevice
end NetGymSim.Gma.Measure

import NetGymSim.Lib.Machine
import NetGymSim.Lib.Word
import Mathlib.Data.List.Nodup
import Mathlib.Data.List.Pairwise
import Mathlib.Data.Fin.Basic
import Mathlib.Data.Finset.Max

/-!
# Admission of QoS tests on the server

The server lets one client at a time test a channel. The first request of a channel is handed
to the interface of its client and starts a timer; the ones that arrive while the timer is
pending wait in the list of the channel, and each firing of the timer takes the next one. The
run is logged as the reports of what became of each request, so that the order of the list and
the overlap of tests are statements about the log.
-/

namespace NetGymSim.Gma
open NetGymSim.Lib

abbrev Ipv4Address := ℕ
abbrev ChannelId := Fin 256

structure QosRequest (π : Type*) where
  addr : Ipv4Address
  channelId : ChannelId
  testDuration : Fin 256
  packet : π
  deriving DecidableEq

structure QosRequestInfo (π : Type*) where
  qosTestProhibitTimer : ℕ
  qosRequestList : List (QosRequest π) := []
  deriving DecidableEq

/-- A scheduled call of `QosTestingTimerExpire`. -/
structure TimerExpire where
  uid : ℕ
  channelId : ChannelId
  expiry : ℕ
  deriving DecidableEq

inductive ProtocolError
  | noVirtualInterface
  | shouldDeleteThisMap
  | noQosRequestInfo
  deriving DecidableEq

inductive Fate
  | queued
  | taken
  | direct
  deriving DecidableEq

structure Report (π : Type*) where
  time : ℕ
  fate : Fate
  request : QosRequest π
  virIp : Option Ipv4Address
  deriving DecidableEq

def Report.stop {π : Type*} (e : Report π) : ℕ := e.time + e.request.testDuration * 100

structure GmaProtocol (π : Type*) where
  gamVirtualInterfaceMap : List Ipv4Address := []
  gmaNodeIdToVirIpMap : ℕ → Ipv4Address := fun _ => 0x66666666
  phyToVirIpMap : Ipv4Address → Option Ipv4Address := fun _ => none
  channelToQosRequestInfo : ChannelId → Option (QosRequestInfo π) := fun _ => none
  now : ℕ := 0
  timers : List TimerExpire := []
  nextUid : ℕ := 0
  log : List (Report π) := []
  failure : Option ProtocolError := none

inductive PhyPacket (π : Type*)
  | probe (clientId : ℕ) (probeFlag : Bool)
  | qosRequest (channelId : ChannelId) (testDuration : Fin 256) (packet : π)
  | other
  deriving DecidableEq

inductive ProtocolOp (π : Type*)
  | addRemoteVirIp (virIp : Ipv4Address) (nodeId : ℕ)
  | addRemotePhyIp (virIp phyAddr : Ipv4Address)
  | virtualRecv (time : ℕ) (addr : Ipv4Address) (p : PhyPacket π)
  | qosTestingTimerExpire (t : TimerExpire)
  deriving DecidableEq

namespace GmaProtocol
variable {π : Type*}

def uint8Max : ChannelId := 255

def qosTestingGuardTime : ℕ := 100

def fail (s : GmaProtocol π) (e : ProtocolError) : GmaProtocol π := { s with failure := some e }

def setInfo (s : GmaProtocol π) (c : ChannelId) (info : Option (QosRequestInfo π)) :
    GmaProtocol π :=
  { s with channelToQosRequestInfo := Function.update s.channelToQosRequestInfo c info }

/-- The tail that all branches share: the interface of the address, if it has one, gets the
packet. -/
def handOver (s : GmaProtocol π) (addr : Ipv4Address)
    (report : Option Ipv4Address → List (Report π)) : GmaProtocol π :=
  match s.phyToVirIpMap addr with
  | some virIp =>
      if virIp ∈ s.gamVirtualInterfaceMap then { s with log := s.log ++ report (some virIp) }
      else s.fail .noVirtualInterface
  | none => { s with log := s.log ++ report none }

def startTimer (s : GmaProtocol π) (c : ChannelId) (testDuration : Fin 256)
    (qosRequestList : List (QosRequest π)) : GmaProtocol π :=
  { s.setInfo c (some ⟨s.nextUid, qosRequestList⟩) with
    timers := s.timers ++ [⟨s.nextUid, c, s.now + (testDuration * 100 + qosTestingGuardTime)⟩]
    nextUid := s.nextUid + 1 }

def isRunning (s : GmaProtocol π) (uid : ℕ) : Bool := s.timers.any fun t => t.uid = uid

def recvQosRequest (s : GmaProtocol π) (r : QosRequest π) : GmaProtocol π :=
  if r.channelId = uint8Max then
    s.handOver r.addr fun virIp => [⟨s.now, .direct, r, virIp⟩]
  else
    match s.channelToQosRequestInfo r.channelId with
    | some info =>
        if s.isRunning info.qosTestProhibitTimer then
          (s.setInfo r.channelId
              (some { info with qosRequestList := info.qosRequestList ++ [r] })).handOver r.addr
            fun virIp => [⟨s.now, .queued, r, virIp⟩]
        else s.fail .shouldDeleteThisMap
    | none =>
        (s.startTimer r.channelId r.testDuration []).handOver r.addr
          fun virIp => [⟨s.now, .direct, r, virIp⟩]

def mapPhyIp (s : GmaProtocol π) (phyAddr virIp : Ipv4Address) : GmaProtocol π :=
  { s with phyToVirIpMap := Function.update s.phyToVirIpMap phyAddr (some virIp) }

def addRemotePhyIp (s : GmaProtocol π) (virIp phyAddr : Ipv4Address) : GmaProtocol π :=
  if virIp ∈ s.gamVirtualInterfaceMap then s.mapPhyIp phyAddr virIp
  else s.fail .noVirtualInterface

def recvProbe (s : GmaProtocol π) (addr : Ipv4Address) (clientId : ℕ) (probeFlag : Bool) :
    GmaProtocol π :=
  let virIp := s.gmaNodeIdToVirIpMap clientId
  let s := s.mapPhyIp addr virIp
  let s := if probeFlag then s.addRemotePhyIp virIp addr else s
  if s.failure.isSome then s else s.handOver addr fun _ => []

def virtualRecv (s : GmaProtocol π) (addr : Ipv4Address) : PhyPacket π → GmaProtocol π
  | .probe clientId probeFlag => s.recvProbe addr clientId probeFlag
  | .qosRequest c testDuration packet => s.recvQosRequest ⟨addr, c, testDuration, packet⟩
  | .other => s.handOver addr fun _ => []

def qosTestingTimerExpire (s : GmaProtocol π) (c : ChannelId) : GmaProtocol π :=
  match s.channelToQosRequestInfo c with
  | none => s.fail .noQosRequestInfo
  | some info =>
      match info.qosRequestList with
      | [] => s.setInfo c none
      | r :: rest =>
          let s := (s.setInfo c (some { info with qosRequestList := rest })).handOver r.addr
            fun virIp => [⟨s.now, .taken, r, virIp⟩]
          if s.failure.isSome then s else s.startTimer c r.testDuration rest

def fire (s : GmaProtocol π) (t : TimerExpire) : GmaProtocol π :=
  { s with now := t.expiry, timers := s.timers.filter (· ≠ t) }

def apply (s : GmaProtocol π) : ProtocolOp π → GmaProtocol π
  | .addRemoteVirIp virIp nodeId =>
      { s with
        gamVirtualInterfaceMap := virIp :: s.gamVirtualInterfaceMap
        gmaNodeIdToVirIpMap := Function.update s.gmaNodeIdToVirIpMap nodeId virIp }
  | .addRemotePhyIp virIp phyAddr => s.addRemotePhyIp virIp phyAddr
  | .virtualRecv time addr p => { s with now := time }.virtualRecv addr p
  | .qosTestingTimerExpire t => (s.fire t).qosTestingTimerExpire t.channelId

def Enabled (s : GmaProtocol π) : ProtocolOp π → Prop
  | .virtualRecv time _ _ =>
      s.failure = none ∧ s.now ≤ time ∧ ∀ t ∈ s.timers, time ≤ t.expiry
  | .qosTestingTimerExpire t =>
      s.failure = none ∧ t ∈ s.timers ∧ ∀ t' ∈ s.timers, t.expiry ≤ t'.expiry
  | _ => s.failure = none

instance (s : GmaProtocol π) (op : ProtocolOp π) : Decidable (s.Enabled op) := by
  cases op <;> unfold Enabled <;> infer_instance

def machine : Machine (GmaProtocol π) (ProtocolOp π) := ⟨Enabled, apply⟩

instance (s : GmaProtocol π) (op : ProtocolOp π) :
    Decidable ((machine (π := π)).enabled s op) :=
  inferInstanceAs (Decidable (s.Enabled op))

section Log

def requestsOf (fate : Fate) (log : List (Report π)) : List (QosRequest π) :=
  (log.filter fun e => e.fate = fate).map Report.request

def tests (log : List (Report π)) : List (Report π) :=
  log.filter fun e => e.fate ≠ .queued ∧ e.virIp.isSome

def logOf (s : GmaProtocol π) (c : ChannelId) : List (Report π) :=
  s.log.filter fun e => e.request.channelId = c

def timersOf (s : GmaProtocol π) (c : ChannelId) : List TimerExpire :=
  s.timers.filter fun t => t.channelId = c

def waiting : Option (QosRequestInfo π) → List (QosRequest π)
  | none => []
  | some info => info.qosRequestList

end Log

/-- What the server holds about one channel. -/
structure Channel (π : Type*) where
  info : Option (QosRequestInfo π)
  timers : List TimerExpire
  log : List (Report π)
  now : ℕ

def channel (s : GmaProtocol π) (c : ChannelId) : Channel π :=
  ⟨s.channelToQosRequestInfo c, s.timersOf c, s.logOf c, s.now⟩

namespace Channel

def Armed (v : Channel π) : Prop :=
  match v.info with
  | none => v.timers = []
  | some info => ∃ t, v.timers = [t] ∧ t.uid = info.qosTestProhibitTimer

structure Testing (v : Channel π) : Prop where
  armed : v.Armed
  due : ∀ t ∈ v.timers, v.now ≤ t.expiry
  order : requestsOf .queued v.log = requestsOf .taken v.log ++ waiting v.info
  apart : (tests v.log).Pairwise fun a b => a.stop < b.time
  idle : v.timers = [] → ∀ e ∈ tests v.log, e.stop < v.now
  busy : ∀ t ∈ v.timers, ∀ e ∈ tests v.log, e.stop < t.expiry

structure Bypassed (v : Channel π) : Prop where
  info : v.info = none
  timers : v.timers = []
  queued : requestsOf .queued v.log = []
  taken : requestsOf .taken v.log = []

section Steps
variable {v : Channel π} {info : QosRequestInfo π} {r : QosRequest π} {virIp : Option Ipv4Address}

theorem Testing.tick (h : v.Testing) {now : ℕ} (hle : v.now ≤ now)
    (hdue : ∀ t ∈ v.timers, now ≤ t.expiry) : { v with now := now }.Testing where
  armed := h.armed
  due := hdue
  order := h.order
  apart := h.apart
  idle ht e he := (h.idle ht e he).trans_le hle
  busy := h.busy

theorem Testing.queue (h : v.Testing) (hi : v.info = some info) (r : QosRequest π)
    (virIp : Option Ipv4Address) : Channel.Testing { v with
      info := some { info with qosRequestList := info.qosRequestList ++ [r] }
      log := v.log ++ [⟨v.now, .queued, r, virIp⟩] } where
  armed := by
    have := h.armed
    simp only [Armed, hi] at this ⊢
    exact this
  due := h.due
  order := by
    have := h.order
    rw [hi] at this
    simp only [requestsOf, waiting, List.filter_append, List.map_append] at this ⊢
    rw [this]
    simp
  apart := by simpa [tests] using h.apart
  idle := by simpa [tests] using h.idle
  busy := by simpa [tests] using h.busy

theorem Testing.start {log : List (Report π)} {now : ℕ} {c : ChannelId} {fate : Fate}
    {rest : List (QosRequest π)} (hapart : (tests log).Pairwise fun a b => a.stop < b.time)
    (hidle : ∀ e ∈ tests log, e.stop < now) (hfate : fate ≠ .queued) (uid : ℕ)
    (virIp : Option Ipv4Address) (horder : requestsOf .queued log =
      requestsOf .taken (log ++ [⟨now, fate, r, virIp⟩]) ++ rest) :
    Channel.Testing ⟨some ⟨uid, rest⟩,
      [⟨uid, c, now + (r.testDuration * 100 + qosTestingGuardTime)⟩],
      log ++ [⟨now, fate, r, virIp⟩], now⟩ where
  armed := ⟨_, rfl, rfl⟩
  due := by simp
  order := by
    rw [waiting, ← horder]
    simp [requestsOf, hfate]
  apart := by
    rw [tests, List.filter_append, List.pairwise_append]
    refine ⟨hapart, ?_, ?_⟩
    · exact List.Pairwise.filter _ (List.pairwise_singleton _ _)
    · intro a ha b hb
      obtain rfl := List.mem_singleton.mp (List.mem_filter.mp hb).1
      exact hidle a ha
  idle h := by cases h
  busy t ht e he := by
    obtain rfl := List.mem_singleton.mp ht
    rw [tests, List.filter_append] at he
    rcases List.mem_append.mp he with he | he
    · exact (hidle e he).trans_le (Nat.le_add_right _ _)
    · obtain rfl := List.mem_singleton.mp (List.mem_filter.mp he).1
      simp only [Report.stop, qosTestingGuardTime]
      omega

theorem Testing.finish (h : v.Testing) {t : TimerExpire} (ht : t ∈ v.timers)
    (hi : v.info = some info) (hempty : info.qosRequestList = []) :
    Channel.Testing ⟨none, [], v.log, t.expiry⟩ where
  armed := rfl
  due _ h := by cases h
  order := by
    rw [h.order, hi, show waiting (some info) = [] from hempty]
    rfl
  apart := h.apart
  idle _ := h.busy t ht
  busy _ h := by cases h

theorem Testing.info_iff (h : v.Testing) : v.info.isSome ↔ v.timers ≠ [] := by
  have := h.armed
  cases hi : v.info with
  | none =>
    rw [Armed, hi] at this
    simp [this]
  | some info =>
    rw [Armed, hi] at this
    obtain ⟨t, ht, _⟩ := this
    simp [ht]

theorem Testing.length_le (h : v.Testing) : v.timers.length ≤ 1 := by
  have := h.armed
  cases hi : v.info with
  | none =>
    rw [Armed, hi] at this
    simp [this]
  | some info =>
    rw [Armed, hi] at this
    obtain ⟨t, ht, _⟩ := this
    simp [ht]

theorem Bypassed.direct (h : v.Bypassed) (r : QosRequest π) (virIp : Option Ipv4Address) :
    Channel.Bypassed { v with log := v.log ++ [⟨v.now, .direct, r, virIp⟩] } where
  info := h.info
  timers := h.timers
  queued := by
    have := h.queued
    simp only [requestsOf, List.filter_append, List.map_append] at this ⊢
    rw [this]
    simp
  taken := by
    have := h.taken
    simp only [requestsOf, List.filter_append, List.map_append] at this ⊢
    rw [this]
    simp

end Steps
end Channel

structure Mapped (s : GmaProtocol π) : Prop where
  known : ∀ e ∈ s.log, e.virIp.isSome → (s.phyToVirIpMap e.request.addr).isSome
  kept : s.log.Pairwise fun a b => a.request.addr = b.request.addr → a.virIp.isSome → b.virIp.isSome

structure Admitted (s : GmaProtocol π) : Prop where
  bypassed : (s.channel uint8Max).Bypassed
  testing : ∀ c ≠ uint8Max, (s.channel c).Testing
  mapped : s.Mapped

def Sound (s : GmaProtocol π) : Prop :=
  s.failure = some .noVirtualInterface ∨ s.failure = none ∧ s.Admitted

section Preservation
variable {s : GmaProtocol π} {r : QosRequest π} {c : ChannelId}

theorem Mapped.report (h : s.Mapped) {t : GmaProtocol π} {e : Report π}
    (hmap : t.phyToVirIpMap = s.phyToVirIpMap) (hlog : t.log = s.log ++ [e])
    (he : e.virIp = s.phyToVirIpMap e.request.addr) : t.Mapped where
  known a ha := by
    rw [hlog] at ha
    rw [hmap]
    rcases List.mem_append.mp ha with ha | ha
    · exact h.known a ha
    · obtain rfl := List.mem_singleton.mp ha
      rw [he]
      exact id
  kept := by
    rw [hlog, List.pairwise_append]
    refine ⟨h.kept, List.pairwise_singleton _ _, ?_⟩
    intro a ha b hb heq hsome
    obtain rfl := List.mem_singleton.mp hb
    rw [he, ← heq]
    exact h.known a ha hsome

theorem Mapped.mapPhyIp (h : s.Mapped) (addr virIp : Ipv4Address) :
    (s.mapPhyIp addr virIp).Mapped where
  known e he hsome := by
    by_cases heq : e.request.addr = addr
    · simp [GmaProtocol.mapPhyIp, heq]
    · simpa [GmaProtocol.mapPhyIp, Function.update_of_ne heq] using h.known e he hsome
  kept := h.kept

theorem Admitted.mapPhyIp (h : s.Admitted) (addr virIp : Ipv4Address) :
    (s.mapPhyIp addr virIp).Admitted :=
  ⟨h.bypassed, h.testing, h.mapped.mapPhyIp addr virIp⟩

theorem handOver_eq (s : GmaProtocol π) (addr : Ipv4Address)
    (report : Option Ipv4Address → List (Report π)) :
    s.handOver addr report = s.fail .noVirtualInterface ∨
      s.handOver addr report = { s with log := s.log ++ report (s.phyToVirIpMap addr) } := by
  cases hmap : s.phyToVirIpMap addr with
  | none =>
    unfold handOver
    rw [hmap]
    exact .inr rfl
  | some virIp =>
    unfold handOver
    rw [hmap]
    dsimp only
    split_ifs
    · exact .inr rfl
    · exact .inl rfl

theorem handOver_sound {addr : Ipv4Address} {report : Option Ipv4Address → List (Report π)}
    (hf : s.failure = none)
    (h : ({ s with log := s.log ++ report (s.phyToVirIpMap addr) } : GmaProtocol π).Admitted) :
    (s.handOver addr report).Sound := by
  rcases s.handOver_eq addr report with heq | heq
  · rw [heq]
    exact .inl rfl
  · rw [heq]
    exact .inr ⟨hf, h⟩

theorem Admitted.tick (h : s.Admitted) {now : ℕ} (hle : s.now ≤ now)
    (hdue : ∀ t ∈ s.timers, now ≤ t.expiry) : ({ s with now := now } : GmaProtocol π).Admitted where
  bypassed := ⟨h.bypassed.info, h.bypassed.timers, h.bypassed.queued, h.bypassed.taken⟩
  testing c hc := (h.testing c hc).tick hle fun t ht => hdue t (List.mem_of_mem_filter ht)
  mapped := ⟨h.mapped.known, h.mapped.kept⟩

theorem Admitted.update (h : s.Admitted) {t : GmaProtocol π} (hc : c ≠ uint8Max)
    (htest : (t.channel c).Testing) (hother : ∀ c' ≠ c, t.channel c' = s.channel c')
    (hmapped : t.Mapped) : t.Admitted where
  bypassed := by
    rw [hother _ hc.symm]
    exact h.bypassed
  testing c' hc' := by
    by_cases heq : c' = c
    · rw [heq]
      exact htest
    · rw [hother c' heq]
      exact h.testing c' hc'
  mapped := hmapped

section Views
variable {e : Report π} {c' : ChannelId} {rest : List (QosRequest π)} {testDuration : Fin 256}

theorem channel_setInfo_of_ne {info : Option (QosRequestInfo π)} (hne : c' ≠ c) :
    (s.setInfo c info).channel c' = s.channel c' := by
  simp [channel, setInfo, logOf, timersOf, Function.update_of_ne hne]

theorem channel_start_self (s : GmaProtocol π) (testDuration : Fin 256)
    (rest : List (QosRequest π)) (he : e.request.channelId = c) :
    (({ s with log := s.log ++ [e] } : GmaProtocol π).startTimer c testDuration rest).channel c =
      ⟨some ⟨s.nextUid, rest⟩,
        s.timersOf c ++ [⟨s.nextUid, c, s.now + (testDuration * 100 + qosTestingGuardTime)⟩],
        s.logOf c ++ [e], s.now⟩ := by
  simp [channel, startTimer, setInfo, logOf, timersOf, he]

theorem channel_start_of_ne (he : e.request.channelId = c) (hne : c' ≠ c) :
    (({ s with log := s.log ++ [e] } : GmaProtocol π).startTimer c testDuration rest).channel c' =
      s.channel c' := by
  simp [channel, startTimer, setInfo, logOf, timersOf, Function.update_of_ne hne, he, hne.symm]

theorem channelId_of_waiting (h : (s.channel c).Testing)
    (hr : r ∈ waiting (s.channelToQosRequestInfo c)) : r.channelId = c := by
  have hmem : r ∈ requestsOf .queued (s.logOf c) := by
    have horder := h.order
    simp only [channel] at horder
    rw [horder]
    exact List.mem_append_right _ hr
  obtain ⟨e, he, rfl⟩ := List.mem_map.mp hmem
  simpa [logOf] using (List.mem_filter.mp (List.mem_filter.mp he).1).2

end Views

theorem recvQosRequest_sound (hf : s.failure = none) (h : s.Admitted) :
    (s.recvQosRequest r).Sound := by
  simp only [recvQosRequest]
  split_ifs with hc
  · apply handOver_sound hf
    refine ⟨?_, ?_, h.mapped.report rfl rfl rfl⟩
    · have := h.bypassed.direct r (s.phyToVirIpMap r.addr)
      simpa [channel, logOf, timersOf, hc] using this
    · intro c' hc'
      have hne : r.channelId ≠ c' := fun h => hc' (h ▸ hc)
      simpa [channel, logOf, timersOf, hne] using h.testing c' hc'
  · have htest := h.testing r.channelId hc
    cases hi : s.channelToQosRequestInfo r.channelId with
    | some info =>
      have harmed := htest.armed
      simp only [Channel.Armed, channel, hi] at harmed
      obtain ⟨t, ht, huid⟩ := harmed
      have hrun : s.isRunning info.qosTestProhibitTimer := by
        have hmem : t ∈ s.timersOf r.channelId := ht ▸ List.mem_singleton_self t
        simp only [isRunning, List.any_eq_true]
        exact ⟨t, List.mem_of_mem_filter hmem, decide_eq_true huid⟩
      simp only [hrun, if_true]
      apply handOver_sound
      · exact hf
      refine h.update hc ?_ ?_ (h.mapped.report rfl rfl rfl)
      · have := htest.queue hi r (s.phyToVirIpMap r.addr)
        simpa [channel, setInfo, logOf, timersOf] using this
      · intro c' hc'
        simp [channel, setInfo, logOf, timersOf, Function.update_of_ne hc', hc'.symm]
    | none =>
      have hnone : s.timersOf r.channelId = [] := by
        have := htest.armed
        simpa only [Channel.Armed, channel, hi] using this
      apply handOver_sound
      · exact hf
      refine h.update hc ?_ ?_ (h.mapped.report rfl rfl rfl)
      · have horder : requestsOf .queued (s.logOf r.channelId) = requestsOf .taken
            (s.logOf r.channelId ++ [⟨s.now, .direct, r, s.phyToVirIpMap r.addr⟩]) ++ [] := by
          have := htest.order
          simp only [channel, hi, waiting] at this
          rw [this]
          simp [requestsOf]
        have hstart := Channel.Testing.start (c := r.channelId) htest.apart (htest.idle hnone)
          (by decide) s.nextUid (s.phyToVirIpMap r.addr) horder
        have hself := channel_start_self (e := ⟨s.now, .direct, r, s.phyToVirIpMap r.addr⟩) s
          r.testDuration [] rfl
        rw [hnone] at hself
        exact (congrArg Channel.Testing hself).mpr hstart
      · intro c' hc'
        exact channel_start_of_ne rfl hc'

theorem addRemotePhyIp_sound (hf : s.failure = none) (h : s.Admitted)
    (virIp phyAddr : Ipv4Address) :
    (s.addRemotePhyIp virIp phyAddr).Sound := by
  simp only [addRemotePhyIp]
  split_ifs
  · exact .inr ⟨hf, h.mapPhyIp phyAddr virIp⟩
  · exact .inl rfl

theorem recvProbe_sound (hf : s.failure = none) (h : s.Admitted) (addr : Ipv4Address)
    (clientId : ℕ) (probeFlag : Bool) : (s.recvProbe addr clientId probeFlag).Sound := by
  have hmap := h.mapPhyIp addr (s.gmaNodeIdToVirIpMap clientId)
  have hfmap : (s.mapPhyIp addr (s.gmaNodeIdToVirIpMap clientId)).failure = none := hf
  cases probeFlag with
  | false =>
    simp only [recvProbe, Bool.false_eq_true, if_false, hfmap, Option.isSome_none]
    apply handOver_sound hfmap
    simpa using hmap
  | true =>
    simp only [recvProbe, if_true]
    rcases addRemotePhyIp_sound hfmap hmap (s.gmaNodeIdToVirIpMap clientId) addr with
      hfail | ⟨hok, hA⟩
    · rw [if_pos (by rw [hfail]; rfl)]
      exact .inl hfail
    · rw [if_neg (by rw [hok]; exact Bool.false_ne_true)]
      apply handOver_sound hok
      simpa using hA

theorem virtualRecv_sound (hf : s.failure = none) (h : s.Admitted) (addr : Ipv4Address)
    (p : PhyPacket π) : (s.virtualRecv addr p).Sound := by
  cases p with
  | probe clientId probeFlag => exact recvProbe_sound hf h addr clientId probeFlag
  | qosRequest c testDuration packet => exact recvQosRequest_sound hf h
  | other =>
    apply handOver_sound hf
    simpa using h

theorem timersOf_fire {t : TimerExpire} (h : s.timersOf t.channelId = [t]) :
    (s.fire t).timersOf t.channelId = [] := by
  simp only [fire, timersOf] at h ⊢
  rw [List.filter_comm, h]
  simp

theorem channel_fire_of_ne {t : TimerExpire} (hc : c ≠ t.channelId) :
    (s.fire t).channel c = { s.channel c with now := t.expiry } := by
  have htimers : (s.fire t).timersOf c = s.timersOf c := by
    simp only [fire, timersOf]
    rw [List.filter_comm]
    refine List.filter_eq_self.mpr fun t' ht' => ?_
    have hch := (List.mem_filter.mp ht').2
    simp only [decide_eq_true_eq] at hch ⊢
    rintro rfl
    exact hc hch.symm
  simp only [channel, htimers]
  rfl

theorem qosTestingTimerExpire_sound (hf : s.failure = none) (h : s.Admitted) {t : TimerExpire}
    (he : s.Enabled (.qosTestingTimerExpire t)) :
    ((s.fire t).qosTestingTimerExpire t.channelId).Sound := by
  obtain ⟨-, ht, hfirst⟩ := he
  have hmem : t ∈ s.timersOf t.channelId := List.mem_filter.mpr ⟨ht, by simp⟩
  have hc : t.channelId ≠ uint8Max := by
    intro hc
    have hnil : s.timersOf t.channelId = [] := hc ▸ h.bypassed.timers
    rw [hnil] at hmem
    cases hmem
  have htest := h.testing t.channelId hc
  have hle := htest.due t hmem
  obtain ⟨info, hi⟩ := Option.isSome_iff_exists.mp
    (htest.info_iff.mpr (List.ne_nil_of_mem hmem))
  have harmed := htest.armed
  simp only [channel] at hi
  simp only [Channel.Armed, channel, hi] at harmed
  obtain ⟨t', ht', -⟩ := harmed
  obtain rfl : t = t' := List.mem_singleton.mp (ht' ▸ hmem)
  have hgone := timersOf_fire ht'
  have htick : ({ s with now := t.expiry } : GmaProtocol π).Admitted := h.tick hle hfirst
  simp only [qosTestingTimerExpire, show (s.fire t).channelToQosRequestInfo t.channelId =
    some info from hi]
  cases hl : info.qosRequestList with
  | nil =>
    refine .inr ⟨hf, htick.update hc ?_ ?_ ⟨h.mapped.known, h.mapped.kept⟩⟩
    · have hfinish := htest.finish hmem hi hl
      have : ((s.fire t).setInfo t.channelId none).channel t.channelId =
          ⟨none, (s.fire t).timersOf t.channelId, s.logOf t.channelId, t.expiry⟩ := by
        simp only [channel, setInfo, Function.update_self]
        rfl
      rw [this, hgone]
      exact hfinish
    · intro c' hc'
      calc ((s.fire t).setInfo t.channelId none).channel c'
        _ = (s.fire t).channel c' := by
          simp only [channel, setInfo, Function.update_of_ne hc']
          rfl
        _ = _ := channel_fire_of_ne hc'
  | cons r rest =>
    have hr : r.channelId = t.channelId := by
      apply channelId_of_waiting htest
      rw [hi, waiting, hl]
      exact List.mem_cons_self
    have hcases :=
      ((s.fire t).setInfo t.channelId (some ⟨info.qosTestProhibitTimer, rest⟩)).handOver_eq
      r.addr fun virIp => [⟨(s.fire t).now, .taken, r, virIp⟩]
    dsimp only
    rcases hcases with heq | heq
    · rw [heq]
      exact .inl rfl
    · rw [heq]
      split_ifs with hfailed
      · exact absurd hfailed (by simp [fire, setInfo, hf])
      refine .inr ⟨hf, htick.update hc ?_ ?_ (h.mapped.report rfl rfl rfl)⟩
      · have horder : requestsOf .queued (s.logOf t.channelId) = requestsOf .taken
            (s.logOf t.channelId ++ [⟨t.expiry, .taken, r, s.phyToVirIpMap r.addr⟩]) ++ rest := by
          have := htest.order
          simp only [channel, hi, waiting, hl] at this
          rw [this]
          simp [requestsOf]
        have hstart := Channel.Testing.start (c := t.channelId) htest.apart (htest.busy t hmem)
          (by decide) s.nextUid (s.phyToVirIpMap r.addr) horder
        refine (congrArg Channel.Testing ((channel_start_self _ _ _ hr).trans ?_)).mpr hstart
        rw [show ((s.fire t).setInfo _ _).timersOf t.channelId = [] from hgone]
        rfl
      · intro c' hc'
        exact (channel_start_of_ne hr hc').trans
          ((channel_setInfo_of_ne hc').trans (channel_fire_of_ne hc'))

theorem apply_sound (h : s.Sound) {op : ProtocolOp π} (he : s.Enabled op) :
    (s.apply op).Sound := by
  have hf : s.failure = none := by
    cases op with
    | virtualRecv => exact he.1
    | qosTestingTimerExpire => exact he.1
    | _ => exact he
  have hA : s.Admitted := by
    rcases h with h | h
    · rw [hf] at h
      cases h
    · exact h.2
  cases op with
  | addRemoteVirIp => exact .inr ⟨hf, hA.bypassed, hA.testing, hA.mapped.known, hA.mapped.kept⟩
  | addRemotePhyIp virIp phyAddr => exact addRemotePhyIp_sound hf hA virIp phyAddr
  | virtualRecv time addr p =>
    exact virtualRecv_sound (s := { s with now := time }) hf (hA.tick he.2.1 he.2.2) addr p
  | qosTestingTimerExpire t => exact qosTestingTimerExpire_sound hf hA he

theorem sound_init : ({} : GmaProtocol π).Sound :=
  .inr ⟨rfl, ⟨rfl, rfl, rfl, rfl⟩, fun _ _ => ⟨rfl, nofun, rfl, .nil, nofun, nofun⟩, nofun, .nil⟩

theorem reaches_sound {ops : List (ProtocolOp π)} (h : machine.Reaches {} ops s) : s.Sound :=
  h.invariant sound_init fun _ _ hs he => apply_sound hs he

theorem expire_log {t : TimerExpire} (h : (s.apply (.qosTestingTimerExpire t)).failure = none) :
    (s.apply (.qosTestingTimerExpire t)).log = s.log ++
      ((waiting (s.channelToQosRequestInfo t.channelId)).take 1).map fun r =>
        ⟨t.expiry, .taken, r, s.phyToVirIpMap r.addr⟩ := by
  simp only [apply, qosTestingTimerExpire] at h ⊢
  cases hi : s.channelToQosRequestInfo t.channelId with
  | none =>
    rw [show (s.fire t).channelToQosRequestInfo t.channelId = none from hi] at h
    cases h
  | some info =>
    rw [show (s.fire t).channelToQosRequestInfo t.channelId = some info from hi] at h ⊢
    dsimp only at h ⊢
    cases hl : info.qosRequestList with
    | nil => simp [waiting, hl, setInfo, fire]
    | cons r rest =>
      have hcases :=
        ((s.fire t).setInfo t.channelId (some ⟨info.qosTestProhibitTimer, rest⟩)).handOver_eq
        r.addr fun virIp => [⟨(s.fire t).now, .taken, r, virIp⟩]
      rw [hl] at h
      dsimp only at h ⊢
      rcases hcases with heq | heq
      · rw [heq] at h
        cases h
      · rw [heq] at h ⊢
        split_ifs at h ⊢ with hfailed
        · rw [h] at hfailed
          cases hfailed
        · simp [waiting, hl, startTimer, setInfo, fire]

theorem exists_first (hf : s.failure = none) (h : s.timers ≠ []) :
    ∃ t, s.Enabled (.qosTestingTimerExpire t) := by
  have hne : s.timers.toFinset.Nonempty := by
    obtain ⟨t, ht⟩ := List.exists_mem_of_ne_nil _ h
    exact ⟨t, List.mem_toFinset.mpr ht⟩
  obtain ⟨t, ht, hmin⟩ := Finset.exists_min_image _ TimerExpire.expiry hne
  exact ⟨t, hf, List.mem_toFinset.mp ht, fun t' ht' => hmin t' (List.mem_toFinset.mpr ht')⟩

end Preservation

section Claim
variable {s : GmaProtocol π} {ops : List (ProtocolOp π)}

theorem qos_admission (h : machine.Reaches {} ops s) :
    (s.failure ≠ some .shouldDeleteThisMap ∧ s.failure ≠ some .noQosRequestInfo) ∧
    (s.failure = none →
      (∀ c, (s.channelToQosRequestInfo c).isSome ↔ ∃ t ∈ s.timers, t.channelId = c) ∧
      (∀ c, (s.timersOf c).length ≤ 1) ∧
      (∀ c ≠ uint8Max, (tests (s.logOf c)).Pairwise fun a b => a.stop < b.time) ∧
      (∀ c, requestsOf .queued (s.logOf c) =
        requestsOf .taken (s.logOf c) ++ waiting (s.channelToQosRequestInfo c)) ∧
      (s.log.Pairwise fun a b =>
        a.request.addr = b.request.addr → a.virIp.isSome → b.virIp.isSome) ∧
      (∀ t ∈ s.timers, s.now ≤ t.expiry) ∧
      (s.timers ≠ [] → ∃ t, s.Enabled (.qosTestingTimerExpire t)) ∧
      ∀ t, s.Enabled (.qosTestingTimerExpire t) →
        (s.apply (.qosTestingTimerExpire t)).failure = none →
        (s.apply (.qosTestingTimerExpire t)).log = s.log ++
          ((waiting (s.channelToQosRequestInfo t.channelId)).take 1).map fun r =>
            ⟨t.expiry, .taken, r, s.phyToVirIpMap r.addr⟩) := by
  have hs := reaches_sound h
  refine ⟨?_, fun hf => ?_⟩
  · rcases hs with hs | hs
    · rw [hs]
      exact ⟨by decide, by decide⟩
    · rw [hs.1]
      exact ⟨by decide, by decide⟩
  have hA : s.Admitted := by
    rcases hs with hs | hs
    · rw [hf] at hs
      cases hs
    · exact hs.2
  have hmem : ∀ c, s.timersOf c ≠ [] ↔ ∃ t ∈ s.timers, t.channelId = c := by
    intro c
    rw [timersOf, Ne, List.filter_eq_nil_iff]
    simp
  refine ⟨fun c => ?_, fun c => ?_, fun c hc => (hA.testing c hc).apart, fun c => ?_,
    hA.mapped.kept, fun t ht => ?_, exists_first hf, fun t _ => expire_log⟩
  · rw [← hmem]
    by_cases hc : c = uint8Max
    · have hinfo : s.channelToQosRequestInfo c = none := hc ▸ hA.bypassed.info
      have htimers : s.timersOf c = [] := hc ▸ hA.bypassed.timers
      simp [hinfo, htimers]
    · exact (hA.testing c hc).info_iff
  · by_cases hc : c = uint8Max
    · have htimers : s.timersOf c = [] := hc ▸ hA.bypassed.timers
      simp [htimers]
    · exact (hA.testing c hc).length_le
  · by_cases hc : c = uint8Max
    · subst hc
      have hinfo : s.channelToQosRequestInfo uint8Max = none := hA.bypassed.info
      have hqueued : requestsOf .queued (s.logOf uint8Max) = [] := hA.bypassed.queued
      have htaken : requestsOf .taken (s.logOf uint8Max) = [] := hA.bypassed.taken
      rw [hinfo, hqueued, htaken]
      rfl
    · exact (hA.testing c hc).order
  · have hmem' : t ∈ s.timersOf t.channelId := List.mem_filter.mpr ⟨ht, by simp⟩
    by_cases hc : t.channelId = uint8Max
    · have htimers : s.timersOf t.channelId = [] := hc ▸ hA.bypassed.timers
      rw [htimers] at hmem'
      cases hmem'
    · exact (hA.testing _ hc).due t hmem'

def twoClients : List (ProtocolOp Unit) :=
  [.addRemoteVirIp 1 1, .addRemotePhyIp 1 10, .addRemoteVirIp 2 2, .addRemotePhyIp 2 20]

def secondWaits : List (ProtocolOp Unit) := twoClients ++
  [.virtualRecv 0 10 (.qosRequest 1 5 ()), .virtualRecv 100 20 (.qosRequest 1 5 ()),
    .qosTestingTimerExpire ⟨0, 1, 600⟩]

theorem qos_admission_second_waits :
    (tests ((machine.exec {} secondWaits).logOf 1)).map (fun e => (e.time, e.virIp)) =
      [(0, some 1), (600, some 2)] ∧
    (tests ((machine.exec {} secondWaits).logOf 1)).Pairwise fun a b => a.stop < b.time := by
  have hreach : machine.Reaches {} secondWaits (machine.exec {} secondWaits) :=
    Machine.Permits.reaches (by decide)
  exact ⟨by decide, ((qos_admission hreach).2 (by decide)).2.2.1 1 (by decide)⟩

def overlapAndDrop : List (ProtocolOp Unit) := twoClients ++
  [.virtualRecv 0 10 (.qosRequest 255 5 ()), .virtualRecv 100 20 (.qosRequest 255 5 ()),
    .virtualRecv 100 10 (.qosRequest 1 5 ()), .virtualRecv 100 30 (.qosRequest 1 5 ()),
    .qosTestingTimerExpire ⟨0, 1, 700⟩, .qosTestingTimerExpire ⟨1, 1, 1300⟩]

theorem tests_overlap_and_drop : ∃ (ops : List (ProtocolOp Unit)) (s : GmaProtocol Unit),
    machine.Reaches {} ops s ∧ s.failure = none ∧
    (¬ (tests (s.logOf 255)).Pairwise fun a b => a.stop ≤ b.time) ∧
    ∃ r ∈ requestsOf .queued (s.logOf 1),
      waiting (s.channelToQosRequestInfo 1) = [] ∧ ∀ e ∈ tests s.log, e.request ≠ r :=
  ⟨overlapAndDrop, _, Machine.Permits.reaches (by decide), by decide, by decide,
    ⟨30, 1, 5, ()⟩, by decide, by decide, by decide⟩

end Claim

end GmaProtocol
end NetGymSim.Gma

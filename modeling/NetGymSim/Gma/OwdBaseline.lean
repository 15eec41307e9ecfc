import Mathlib.Algebra.Ring.Int.Defs
import NetGymSim.Gma.DelayEmulation
import NetGymSim.Lib.Machine

/-!
# The min-OWD baseline of the measuring side

`MeasureCycleStartByTsa` stores the offset that a TSA reports for each link, and the next
`MeasureIntervalStart` adds it to `m_lastMinOwd`. Only a positive offset is added: a
negative one stays where it is until the next TSA overwrites it, as that TSA does with any
offset not added yet. Devices stand in the order of the sender's `GetCidList`.
-/

namespace NetGymSim.Gma
open NetGymSim.Lib

def noOwd : ℕ := 4294967295

structure MeasureDevice where
  lastMinOwd : ℕ := noOwd
  currentMinOwd : ℕ := noOwd
  lastMaxOwd : ℕ := 0
  currentMaxOwd : ℕ := 0
  senderOwdAdjustment : ℤ := 0
  deriving DecidableEq, Repr

namespace MeasureDevice

def newDelay (d : MeasureDevice) : ℤ := int32 d.lastMinOwd + d.senderOwdAdjustment

def Aborts (d : MeasureDevice) : Prop :=
  0 < d.senderOwdAdjustment ∧ d.lastMinOwd ≠ noOwd ∧ d.newDelay < 0

instance Aborts.decidable (d : MeasureDevice) : Decidable d.Aborts :=
  inferInstanceAs (Decidable (_ ∧ _ ∧ _))

def shift (d : MeasureDevice) : MeasureDevice :=
  if d.lastMinOwd = noOwd then d
  else { d with
    lastMinOwd := d.newDelay.toNat
    currentMinOwd := noOwd
    currentMaxOwd := 0
    senderOwdAdjustment := 0 }

def adjust (d : MeasureDevice) : MeasureDevice :=
  if 0 < d.senderOwdAdjustment then
    let d := d.shift
    if d.lastMaxOwd ≠ 0 then
      { d with lastMaxOwd := (max 0 (d.senderOwdAdjustment + int32 d.lastMaxOwd)).toNat }
    else d
  else d

end MeasureDevice

structure MeasurementManager where
  deviceList : List MeasureDevice
  previousOwdValue : List ℕ := []
  measureStartSn : ℕ := 0
  delayMeasurement : ℕ := 0
  measurementOn : Bool := false
  measureIntervalStarted : Bool := false
  measureIntervalIndex : ℕ := 0
  deriving DecidableEq, Repr

namespace MeasurementManager

def storeOffsets (devices : List MeasureDevice) (owdVector : List ℕ) : List MeasureDevice :=
  if owdVector = [] then devices
  else List.zipWith (fun d byte => { d with senderOwdAdjustment := decodeOffset byte })
    devices owdVector

def measureCycleStartByTsa (m : MeasurementManager) (measureStartSn delay : ℕ)
    (owdVector : List ℕ) : MeasurementManager :=
  { m with
    deviceList := storeOffsets m.deviceList owdVector
    measureStartSn
    delayMeasurement := delay
    measurementOn := true
    measureIntervalStarted := false
    measureIntervalIndex := 0 }

/-- The value sent in the last TSU moves with the baseline. -/
def adjustPrevious (devices : List MeasureDevice) (previous : List ℕ) : List ℕ :=
  List.zipWith (fun d p =>
    if 0 < d.senderOwdAdjustment ∧ d.lastMinOwd ≠ noOwd then d.newDelay.toNat else p)
    devices previous

def measureIntervalStart (m : MeasurementManager) : Option MeasurementManager :=
  if ∃ d ∈ m.deviceList, d.Aborts then none
  else some { m with
    deviceList := m.deviceList.map MeasureDevice.adjust
    previousOwdValue := adjustPrevious m.deviceList m.previousOwdValue
    measureIntervalStarted := true
    measureIntervalIndex := m.measureIntervalIndex + 1 }

end MeasurementManager

/-- A sender with its emulated delays, the TSAs on their way and the measuring side.
`received` lists the vectors of the TSAs that arrived. -/
structure OwdNet where
  cidList : List Cid
  emulateDelay : Cid → ℕ
  channel : List (List ℕ)
  manager : MeasurementManager
  received : List (List ℕ)

namespace OwdNet

inductive Event
  | tsu (owdVector : List ℕ)
  | tsa (measureStartSn delay : ℕ)
  | intervalStart

def enabled (s : OwdNet) : Event → Prop
  | .tsu owdVector => s.cidList.length = owdVector.length
  | .tsa _ _ => s.channel ≠ []
  | .intervalStart => (s.manager.measureIntervalStart).isSome

instance enabled.decidable (s : OwdNet) : (e : Event) → Decidable (s.enabled e)
  | .tsu owdVector => inferInstanceAs (Decidable (s.cidList.length = owdVector.length))
  | .tsa _ _ => inferInstanceAs (Decidable (s.channel ≠ []))
  | .intervalStart => inferInstanceAs (Decidable (_ = true))

def next (s : OwdNet) : Event → OwdNet
  | .tsu owdVector =>
      let r := emulateDelays s.cidList owdVector s.emulateDelay
      { s with emulateDelay := r.1, channel := s.channel ++ [encodeOffsets r.2] }
  | .tsa measureStartSn delay =>
      match s.channel with
      | [] => s
      | owdVector :: rest =>
          { s with
            channel := rest
            manager := s.manager.measureCycleStartByTsa measureStartSn delay owdVector
            received := s.received ++ [owdVector] }
  | .intervalStart => { s with manager := (s.manager.measureIntervalStart).getD s.manager }

def machine : Machine OwdNet Event := ⟨enabled, next⟩

instance machine.decidable (s : OwdNet) (e : Event) : Decidable (machine.enabled s e) :=
  enabled.decidable s e

def start (cidList : List Cid) (base : List ℕ) : OwdNet :=
  { cidList, emulateDelay := fun _ => 0, channel := [], received := []
    manager := { deviceList := base.map fun owd => { lastMinOwd := owd } } }

def offsetAt (i : ℕ) (owdVector : List ℕ) : ℤ := decodeOffset (owdVector.getD i 127)

/-- The baselines are those of the start, shifted by what the sender has reported; with
nothing on its way they are as far apart from them as the delays emulated. -/
def FollowsOffsets (base : List ℕ) (s : OwdNet) : Prop :=
  ∀ (i : ℕ) (cid : Cid) (owd : ℕ) (d : MeasureDevice), s.cidList[i]? = some cid →
    base[i]? = some owd → s.manager.deviceList[i]? = some d →
    (d.lastMinOwd : ℤ) = owd + (s.received.map (offsetAt i)).sum ∧
      (s.channel = [] → d.lastMinOwd = owd + s.emulateDelay cid)

/-- No offset is lost or held back: an interval starts between two TSAs that report a
change, the offsets are not negative then and the baseline has been measured. -/
def offsetsApplied (s : OwdNet) : Event → Prop
  | .tsu _ => Roomy s.cidList s.emulateDelay
  | .tsa _ _ => ∀ d ∈ s.manager.deviceList, d.senderOwdAdjustment = 0
  | .intervalStart => ∀ d ∈ s.manager.deviceList, 0 ≤ d.senderOwdAdjustment ∧
      (0 < d.senderOwdAdjustment → d.lastMinOwd + d.senderOwdAdjustment < 2147483648)

instance offsetsApplied.decidable (s : OwdNet) : (e : Event) → Decidable (s.offsetsApplied e)
  | .tsu _ => inferInstanceAs (Decidable (∀ cid ∈ s.cidList, _ < _))
  | .tsa _ _ => inferInstanceAs (Decidable (∀ d ∈ s.manager.deviceList, _))
  | .intervalStart => inferInstanceAs (Decidable (∀ d ∈ s.manager.deviceList, _ ∧ (_ → _)))

section Devices
variable {d : MeasureDevice} {devices : List MeasureDevice} {i : ℕ}

theorem adjust_applied (h0 : 0 ≤ d.senderOwdAdjustment)
    (h1 : 0 < d.senderOwdAdjustment → d.lastMinOwd + d.senderOwdAdjustment < 2147483648) :
    d.adjust.senderOwdAdjustment = 0 ∧
      (d.adjust.lastMinOwd : ℤ) = d.lastMinOwd + d.senderOwdAdjustment := by
  unfold MeasureDevice.adjust
  split_ifs with hpos
  · have hlt := h1 hpos
    have hshift : d.shift.senderOwdAdjustment = 0 ∧
        (d.shift.lastMinOwd : ℤ) = d.lastMinOwd + d.senderOwdAdjustment := by
      unfold MeasureDevice.shift MeasureDevice.newDelay int32 noOwd
      rw [if_neg (by omega)]
      refine ⟨rfl, ?_⟩
      dsimp only
      omega
    dsimp only
    split_ifs
    · exact hshift
    · exact hshift
  · exact ⟨by omega, by omega⟩

theorem not_aborts (h1 : 0 < d.senderOwdAdjustment →
    d.lastMinOwd + d.senderOwdAdjustment < 2147483648) : ¬ d.Aborts := by
  rintro ⟨hpos, -, hneg⟩
  have := h1 hpos
  unfold MeasureDevice.newDelay int32 at hneg
  omega

end Devices

/-- Baseline, offset stored and offsets received add up; with those on their way they
make the delay emulated. -/
structure Accounts (base : List ℕ) (s : OwdNet) : Prop where
  nodup : s.cidList.Nodup
  nonempty : s.cidList ≠ []
  devices : s.manager.deviceList.length = s.cidList.length
  channel : ∀ v ∈ s.channel, v.length = s.cidList.length
  normal : Normal s.cidList s.emulateDelay
  baseline : ∀ (i owd : ℕ) (d : MeasureDevice), base[i]? = some owd →
    s.manager.deviceList[i]? = some d →
    (d.lastMinOwd : ℤ) + d.senderOwdAdjustment = owd + (s.received.map (offsetAt i)).sum
  delay : ∀ (i : ℕ) (cid : Cid), s.cidList[i]? = some cid →
    (s.received.map (offsetAt i)).sum + (s.channel.map (offsetAt i)).sum = s.emulateDelay cid

namespace Accounts
variable {base : List ℕ} {s : OwdNet}

theorem start {cidList : List Cid} (hn : cidList.Nodup) (hne : cidList ≠ [])
    (hl : base.length = cidList.length) : Accounts base (start cidList base) := by
  refine ⟨hn, hne, by simp [OwdNet.start, hl], by simp [OwdNet.start], ?_, ?_, ?_⟩
  · obtain ⟨cid, hm⟩ := List.exists_mem_of_ne_nil _ hne
    exact ⟨cid, hm, rfl⟩
  · intro i owd d hb hd
    simp only [OwdNet.start, List.getElem?_map, hb, Option.map_some, Option.some.injEq] at hd
    subst hd
    simp [OwdNet.start]
  · intro i cid _
    simp [OwdNet.start]

theorem offsetAt_encode {cids : List Cid} {owd : List ℕ} {delay : Cid → ℕ} (hn : cids.Nodup)
    (hl : cids.length = owd.length) (hz : Normal cids delay) (hr : Roomy cids delay) {i : ℕ}
    {cid : Cid} (hi : cids[i]? = some cid) :
    offsetAt i (encodeOffsets (emulateDelays cids owd delay).2) =
      ((emulateDelays cids owd delay).1 cid : ℤ) - delay cid := by
  have hspec := emulateDelays_spec hn hl hr
  have hget : (emulateDelays cids owd delay).2[i]? =
      some (((emulateDelays cids owd delay).1 cid : ℤ) - delay cid) := by
    rw [hspec, List.getElem?_map, hi]
    rfl
  have hb := emulateDelays_offset_bounds hn hl hz (List.mem_of_getElem? hget)
  have henc : (encodeOffsets (emulateDelays cids owd delay).2).getD i 127 =
      (((emulateDelays cids owd delay).1 cid : ℤ) - delay cid + 127).toNat % 256 := by
    rw [encodeOffsets, List.getD_eq_getElem?_getD, List.getElem?_map, hget]
    rfl
  rw [offsetAt, henc, decode_encode (by omega)]

theorem tsu (h : Accounts base s) {owd : List ℕ} (hl : s.cidList.length = owd.length)
    (hr : Roomy s.cidList s.emulateDelay) : Accounts base (s.next (.tsu owd)) := by
  have hlen : (emulateDelays s.cidList owd s.emulateDelay).2.length = s.cidList.length := by
    rw [emulateDelays_spec h.nodup hl hr, List.length_map]
  refine ⟨h.nodup, h.nonempty, h.devices, ?_, emulateDelays_normal h.nodup hl h.nonempty,
    h.baseline, ?_⟩
  · intro v hv
    rcases List.mem_append.mp hv with hv | hv
    · exact h.channel v hv
    · rw [List.mem_singleton.mp hv, encodeOffsets, List.length_map, hlen]
      rfl
  · intro i cid hi
    have hold := h.delay i cid hi
    have hnew := offsetAt_encode h.nodup hl h.normal hr hi
    simp only [next, List.map_append, List.sum_append, List.map_cons, List.map_nil,
      List.sum_singleton, hnew]
    omega

theorem tsa (h : Accounts base s) {sn delay : ℕ} {v : List ℕ} {rest : List (List ℕ)}
    (hch : s.channel = v :: rest)
    (hz : ∀ d ∈ s.manager.deviceList, d.senderOwdAdjustment = 0) :
    Accounts base (s.next (.tsa sn delay)) := by
  have hv : v.length = s.cidList.length := h.channel v (hch ▸ List.mem_cons_self)
  have hvne : v ≠ [] := fun hnil =>
    h.nonempty (List.eq_nil_of_length_eq_zero (by simp [← hv, hnil]))
  have hdev : (MeasurementManager.storeOffsets s.manager.deviceList v).length =
      s.cidList.length := by
    rw [MeasurementManager.storeOffsets, if_neg hvne, List.length_zipWith, h.devices, hv,
      Nat.min_self]
  simp only [next, hch]
  refine ⟨h.nodup, h.nonempty, hdev, ?_, h.normal, ?_, ?_⟩
  · exact fun w hw => h.channel w (hch ▸ List.mem_cons_of_mem _ hw)
  · intro i owd d hb hd
    simp only [MeasurementManager.measureCycleStartByTsa, MeasurementManager.storeOffsets,
      if_neg hvne, List.getElem?_zipWith] at hd
    cases hold : s.manager.deviceList[i]? with
    | none => simp [hold] at hd
    | some d₀ =>
      cases hbyte : v[i]? with
      | none => simp [hold, hbyte] at hd
      | some byte =>
        simp only [hold, hbyte, Option.some.injEq] at hd
        subst hd
        have hacc := h.baseline i owd d₀ hb hold
        rw [hz d₀ (List.mem_of_getElem? hold)] at hacc
        have hoff : offsetAt i v = decodeOffset byte := by
          simp [offsetAt, List.getD_eq_getElem?_getD, hbyte]
        simp only [List.map_append, List.sum_append, List.map_cons, List.map_nil,
          List.sum_singleton, hoff]
        omega
  · intro i cid hi
    have hacc := h.delay i cid hi
    simp only [hch, List.map_cons, List.sum_cons] at hacc
    simp only [List.map_append, List.sum_append, List.map_cons, List.map_nil, List.sum_singleton]
    omega

theorem interval_eq (hok : s.offsetsApplied .intervalStart) :
    (s.next .intervalStart).manager.deviceList =
      s.manager.deviceList.map MeasureDevice.adjust := by
  have hno : ¬ ∃ d ∈ s.manager.deviceList, d.Aborts := by
    rintro ⟨d, hd, ha⟩
    exact not_aborts (hok d hd).2 ha
  simp [next, MeasurementManager.measureIntervalStart, hno]

theorem intervalStart (h : Accounts base s) (hok : s.offsetsApplied .intervalStart) :
    Accounts base (s.next .intervalStart) := by
  have heq := interval_eq hok
  refine ⟨h.nodup, h.nonempty, ?_, h.channel, h.normal, ?_, h.delay⟩
  · rw [heq, List.length_map]
    exact h.devices
  · intro i owd d hb hd
    rw [heq, List.getElem?_map, Option.map_eq_some_iff] at hd
    obtain ⟨d₀, hd₀, rfl⟩ := hd
    obtain ⟨h0, h1⟩ := hok d₀ (List.mem_of_getElem? hd₀)
    obtain ⟨hz, hsum⟩ := adjust_applied h0 h1
    rw [hz, hsum, Int.add_zero]
    exact h.baseline i owd d₀ hb hd₀

theorem interval_applied (hok : s.offsetsApplied .intervalStart) :
    ∀ d ∈ (s.next .intervalStart).manager.deviceList, d.senderOwdAdjustment = 0 := by
  intro d hd
  rw [interval_eq hok] at hd
  obtain ⟨d₀, hd₀, rfl⟩ := List.mem_map.mp hd
  obtain ⟨h0, h1⟩ := hok d₀ hd₀
  exact (adjust_applied h0 h1).1

theorem step (h : Accounts base s) (e : Event) (he : s.enabled e) (hok : s.offsetsApplied e) :
    Accounts base (s.next e) := by
  cases e with
  | tsu owd => exact h.tsu he hok
  | tsa sn delay =>
    obtain ⟨v, rest, hch⟩ := List.exists_cons_of_ne_nil he
    exact h.tsa hch hok
  | intervalStart => exact h.intervalStart hok

theorem follows (h : Accounts base s)
    (hz : ∀ d ∈ s.manager.deviceList, d.senderOwdAdjustment = 0) : FollowsOffsets base s := by
  intro i cid owd d hi hb hd
  have hbase := h.baseline i owd d hb hd
  have hdelay := h.delay i cid hi
  rw [hz d (List.mem_of_getElem? hd), Int.add_zero] at hbase
  refine ⟨hbase, fun hch => ?_⟩
  rw [hch, List.map_nil, List.sum_nil, Int.add_zero] at hdelay
  omega

end Accounts

/-- At every start of an interval the baselines have followed the offsets. -/
theorem baseline_follows_offsets (cidList : List Cid) (base : List ℕ) (hn : cidList.Nodup)
    (hne : cidList ≠ []) (hl : base.length = cidList.length) {es : List Event} {s : OwdNet}
    (h : (machine.restrict offsetsApplied).Reaches (start cidList base)
      (es ++ [.intervalStart]) s) : FollowsOffsets base s := by
  obtain ⟨t, ht, ⟨-, hok⟩, rfl⟩ := h.last
  have hacc : Accounts base t := by
    refine Machine.Reaches.invariant (P := Accounts base) (.start hn hne hl) ?_ ht
    intro u e hu ⟨he, hc⟩
    exact hu.step e he hc
  exact (hacc.intervalStart hok).follows (Accounts.interval_applied hok)

theorem baseline_follows_offsets_raised :
    FollowsOffsets [30, 20] ((machine.restrict offsetsApplied).exec (start [0, 2] [30, 20])
      ([.tsu [0, 10], .tsa 0 0, .intervalStart, .tsu [255, 7], .tsa 40 0] ++
        [.intervalStart])) :=
  baseline_follows_offsets [0, 2] [30, 20] (by decide) (by decide) rfl
    (Machine.Permits.reaches (by decide +kernel))

theorem negative_offset_ignored :
    ∃ s, machine.Reaches (start [0, 2] [30, 20])
        ([.tsu [0, 10], .tsa 0 0, .intervalStart, .tsu [10, 0], .tsa 40 10] ++ [.intervalStart]) s ∧
      ¬ FollowsOffsets [30, 20] s := by
  refine ⟨_, Machine.Permits.reaches (by decide +kernel), fun h => ?_⟩
  have h1 := (h 1 2 20 { lastMinOwd := 30, currentMinOwd := noOwd, senderOwdAdjustment := -10 }
    rfl rfl (by decide +kernel)).2 (by decide +kernel)
  exact absurd h1 (by decide +kernel)

end OwdNet
end NetGymSim.Gma

import NetGymSim.TrafficControl.FqCoDelRuns

/-!
# The overload drop of `FqCoDelQueueDisc`

A packet above the limit makes `FqCoDelDrop` take packets from the head of a flow queue with the
most bytes until half of these, rounded down, or a batch of packets are gone. The bytes are counted
modulo 2^32.
-/

namespace NetGymSim.TrafficControl
open NetGymSim.Lib

namespace FqCoDel
variable {config : FqCoDelConfig} {maxPacket : ℕ} {s s' t : FqCoDel} {h i : ℕ}
variable {qd qd' : CoDel} {item : QueueDiscItem} {dropped : List QueueDiscItem}

open CoDel (totalSize)

/-- The packets go from the head of a queue until there are `batch` of them, or of `threshold`
bytes, and no further. -/
structure DropsHead (batch threshold : ℕ) (queue dropped left : List QueueDiscItem) : Prop where
  head : queue = dropped ++ left
  some : dropped ≠ []
  enough : batch ≤ dropped.length ∨ threshold ≤ totalSize dropped
  needed : ∀ front, front ≠ [] → front <+: dropped → front ≠ dropped →
    front.length < batch ∧ totalSize front < threshold

theorem dropFront_stops (config : FqCoDelConfig) {threshold fuel : ℕ} (count len : ℕ)
    (hqd : qd.Sound)
    (hthreshold : threshold ≤ len + totalSize qd.queue)
    (hlen : len + totalSize qd.queue < 4294967296) (hfuel : qd.queue.length < fuel)
    (hne : qd.queue ≠ []) :
    ∃ qd' dropped, dropFront config threshold fuel count len qd = some qd' ∧
      qd.queue = dropped ++ qd'.queue ∧ dropped ≠ [] ∧
      (config.dropBatchSize ≤ count + dropped.length ∨ threshold ≤ len + totalSize dropped) ∧
      ∀ front, front ≠ [] → front <+: dropped → front ≠ dropped →
        count + front.length < config.dropBatchSize ∧ len + totalSize front < threshold := by
  induction fuel generalizing count len qd with
  | zero => cases hfuel
  | succ fuel ih =>
    obtain ⟨item, queue, hqueue⟩ := List.exists_cons_of_ne_nil hne
    obtain ⟨next, hpop, hnext, hsound, -⟩ := CoDel.pop_cons hqd hqueue
    rw [hqueue, CoDel.totalSize_cons, ← Nat.add_assoc] at hthreshold hlen
    rw [hqueue, List.length_cons] at hfuel
    rw [dropFront, hpop]
    dsimp only
    rw [add32_of_lt (by omega)]
    by_cases hmore : count + 1 < config.dropBatchSize ∧ len + item.size < threshold
    · rw [if_pos hmore]
      -- half of the bytes are not gone, so there are packets left
      have hleft : next.queue ≠ [] := by
        intro hnil
        rw [← hnext, hnil] at hthreshold
        exact absurd hthreshold (Nat.not_le.mpr hmore.2)
      rw [← hnext] at hthreshold hlen hfuel
      obtain ⟨qd', dropped, hrest, hall, -, henough, hneeded⟩ :=
        ih (count + 1) (len + item.size) hsound hthreshold hlen (Nat.succ_lt_succ_iff.mp hfuel)
          hleft
      refine ⟨qd', item :: dropped, hrest, ?_, List.cons_ne_nil item dropped, ?_, ?_⟩
      · rw [hqueue, ← hnext, hall, List.cons_append]
      · rw [List.length_cons, CoDel.totalSize_cons]
        omega
      · intro front hfront hprefix hproper
        obtain ⟨first, front, rfl⟩ := List.exists_cons_of_ne_nil hfront
        obtain ⟨rfl, htail⟩ := List.cons_prefix_cons.mp hprefix
        rw [List.length_cons, CoDel.totalSize_cons]
        by_cases hnil : front = []
        · rw [hnil]
          exact hmore
        · have hdrop := hneeded front hnil htail fun heq => hproper (congrArg _ heq)
          omega
    · rw [if_neg hmore]
      refine ⟨next, [item], rfl, ?_, List.cons_ne_nil item [], ?_, ?_⟩
      · rw [hqueue, hnext, List.singleton_append]
      · have hsize : totalSize [item] = item.size := Nat.add_zero _
        rw [hsize, List.length_singleton]
        omega
      · intro front hfront hprefix hproper
        obtain ⟨first, front, rfl⟩ := List.exists_cons_of_ne_nil hfront
        obtain ⟨rfl, htail⟩ := List.cons_prefix_cons.mp hprefix
        rw [List.prefix_nil.mp htail] at hproper
        exact absurd rfl hproper

theorem Sound.nBytes (ht : t.Sound maxPacket) (hbytes : totalSize (t.queue h) < 4294967296) :
    (t.flow h).queueDisc.nBytes = totalSize (t.queue h) := by
  rw [(ht.discs h).bytes]
  exact Nat.mod_eq_of_lt hbytes

theorem Sound.exists_bytes (ht : t.Sound maxPacket) (hpackets : 0 < t.nPackets) :
    ∃ h ∈ t.classes, 0 < totalSize (t.queue h) := by
  by_contra hnone
  have hempty : ∀ h ∈ t.classes, (t.queue h).length = 0 := by
    intro h hmem
    by_contra hlength
    obtain ⟨item, queue, hqueue⟩ := List.exists_cons_of_length_pos (Nat.pos_of_ne_zero hlength)
    apply hnone
    refine ⟨h, hmem, ?_⟩
    have hsize := (ht.sizes h item (hqueue ▸ List.mem_cons_self)).1
    rw [hqueue, CoDel.totalSize_cons]
    omega
  have hzero : (t.classes.map fun h => (t.queue h).length).sum = 0 := by
    apply List.sum_eq_zero
    intro n hn
    obtain ⟨h, hmem, rfl⟩ := List.mem_map.mp hn
    exact hempty h hmem
  rw [ht.packets, hzero] at hpackets
  exact absurd hpackets (Nat.lt_irrefl 0)

theorem fqCoDelDrop_stops (config : FqCoDelConfig) (ht : t.Sound maxPacket)
    (hpackets : 0 < t.nPackets)
    (hbytes : ∀ h, totalSize (t.queue h) < 4294967296) :
    ∃ s' h dropped, t.fqCoDelDrop config = some s' ∧
      (∀ i, totalSize (t.queue i) ≤ totalSize (t.queue h)) ∧
      (∀ i, i ≠ h → s'.queue i = t.queue i) ∧
      DropsHead config.dropBatchSize (totalSize (t.queue h) / 2) (t.queue h) dropped
        (s'.queue h) := by
  obtain ⟨k, hk, hpos⟩ := ht.exists_bytes hpackets
  obtain ⟨-, hcount, hmost⟩ := fattest_spec (List.ne_nil_of_mem hk)
  rw [ht.nBytes (hbytes _)] at hcount
  have hlargest : ∀ i, totalSize (t.queue i) ≤ totalSize (t.queue t.fattest.2) := by
    intro i
    by_cases hi : i ∈ t.classes
    · rw [hcount, ← ht.nBytes (hbytes i)]
      exact hmost i hi
    · have hnil : t.queue i = [] := by
        by_contra hne
        exact hi (ht.mem_classes hne)
      rw [hnil]
      exact Nat.zero_le _
  have hne : t.queue t.fattest.2 ≠ [] := by
    intro hnil
    have hle := hlargest k
    rw [hnil] at hle
    exact absurd hpos (Nat.not_lt.mpr hle)
  have hhalf : t.fattest.1 >>> 1 = totalSize (t.queue t.fattest.2) / 2 := by
    rw [hcount, Nat.shiftRight_one]
  have hthreshold : totalSize (t.queue t.fattest.2) / 2 ≤ 0 + totalSize (t.queue t.fattest.2) := by
    rw [Nat.zero_add]
    exact Nat.div_le_self _ 2
  have hexact : 0 + totalSize (t.queue t.fattest.2) < 4294967296 := by
    rw [Nat.zero_add]
    exact hbytes _
  obtain ⟨qd, dropped, hfront, hall, hsome, henough, hneeded⟩ :=
    dropFront_stops config 0 0 (ht.discs t.fattest.2) hthreshold hexact (Nat.lt_succ_self _) hne
  simp only [Nat.zero_add] at henough hneeded
  refine ⟨t.setQueueDisc t.fattest.2 qd, t.fattest.2, dropped, ?_, hlargest, ?_, ?_⟩
  · rw [fqCoDelDrop_eq, hhalf]
    exact congrArg _ hfront
  · intro i hi
    rw [FqCoDel.queue, flow_setQueueDisc_other t qd hi]
    rfl
  · have hqueue : (t.setQueueDisc t.fattest.2 qd).queue t.fattest.2 = qd.queue := by
      rw [FqCoDel.queue, flow_setQueueDisc_same]
    rw [hqueue]
    exact ⟨hall, hsome, henough, hneeded⟩

/-- The packet that came is in its flow queue in `t`, and `result` is what `DoEnqueue` makes of it.
`half` is half of a backlog. -/
def Relieves (config : FqCoDelConfig) (half : ℕ → ℕ) (t : FqCoDel) (result : Option FqCoDel) :
    Prop :=
  ∃ s' h dropped, result = some s' ∧ s'.nPackets ≤ config.maxSize ∧
    (∀ i, totalSize (t.queue i) ≤ totalSize (t.queue h)) ∧
    (∀ i, i ≠ h → s'.queue i = t.queue i) ∧
    DropsHead config.dropBatchSize (half (totalSize (t.queue h))) (t.queue h) dropped (s'.queue h)

theorem doEnqueue_relieves {es : List FqCoDelEvent}
    (hreach : (machine config maxPacket).Reaches {} es s) (flowHash : ℕ)
    (hitem : 0 < item.size ∧ item.size ≤ maxPacket)
    (hover : config.maxSize < (s.place config flowHash item).nPackets)
    (hbytes : ∀ h ∈ (s.place config flowHash item).classes,
      totalSize ((s.place config flowHash item).queue h) < 4294967296) :
    Relieves config (fun bytes => bytes / 2) (s.place config flowHash item)
      (s.doEnqueue config (some flowHash) item) := by
  obtain ⟨hsound, hlimit⟩ := Reaches.sound hreach
  obtain ⟨hplaced, -, -⟩ := hsound.place config flowHash hitem
  have hexact : ∀ h, totalSize ((s.place config flowHash item).queue h) < 4294967296 := by
    intro h
    by_cases hnil : (s.place config flowHash item).queue h = []
    · rw [hnil]
      exact Nat.succ_pos 4294967295
    · exact hbytes h (hplaced.mem_classes hnil)
  obtain ⟨s', h, dropped, hdrop, hlargest, hother, hdrops⟩ :=
    fqCoDelDrop_stops config hplaced (Nat.zero_lt_of_lt hover) hexact
  have henqueue : s.doEnqueue config (some flowHash) item = some s' := by
    rw [FqCoDel.doEnqueue, if_pos hover, hdrop]
  exact ⟨s', h, dropped, henqueue, (hsound.doEnqueue hlimit hitem henqueue).2, hlargest, hother,
    hdrops⟩

def fourQueues (maxSize : ℕ) : FqCoDelConfig where
  flows := 4
  setWays := 1
  enableSetAssociativeHash := false
  quantum := 1500
  flows_pos := by decide
  setWays_pos := Nat.zero_lt_one
  quantum_pos := by decide
  flows_lt := by decide
  setWays_dvd := nofun
  maxSize := maxSize
  quantum_lt := by decide
  ceThreshold_set := by decide

def arrivals (sizes : List ℕ) : List FqCoDelEvent :=
  sizes.map fun size => .enqueue (some 0) { size }

def backlog (maxSize maxPacket : ℕ) (sizes : List ℕ) : FqCoDel :=
  (machine (fourQueues maxSize) maxPacket).exec {} (arrivals sizes)

theorem doEnqueue_relieves_oddBacklog :
    Relieves (fourQueues 2) (fun bytes => bytes / 2)
      ((backlog 2 101 [100, 101]).place (fourQueues 2) 1 { size := 50 })
      ((backlog 2 101 [100, 101]).doEnqueue (fourQueues 2) (some 1) { size := 50 }) := by
  have hpermits : (machine (fourQueues 2) 101).Permits {} (arrivals [100, 101]) := by
    decide +kernel
  apply doEnqueue_relieves hpermits.reaches 1
  · decide +kernel
  · decide +kernel
  · decide +kernel

end FqCoDel
end NetGymSim.TrafficControl

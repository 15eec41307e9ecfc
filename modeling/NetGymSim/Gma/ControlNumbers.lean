import NetGymSim.Gma.ControlSteps

/-!
# Outstanding control sequence numbers

Messages and retransmissions take the next number of `m_mxCtrSeqNumber`, which repeats
after 65536 of them. A reverse TSU that is turned round keeps the number of the peer. It
is told apart from the others as long as it is not among the numbers that wait when it
arrives, and the endpoint's own counter does not come to it while it waits.
-/

namespace NetGymSim.Gma
open NetGymSim.Lib
namespace Endpoint

def isSent : CtrlRecord → Bool
  | .sent _ _ => true
  | _ => false

def sends (s : Endpoint) : ℕ := s.log.countP isSent

def Unrecorded (s : Endpoint) (n : ℕ) : Prop :=
  ∀ (key : ℕ) (item : TexedCtrQueueItem), s.txedCtrQueue[key]? = some item →
    n ∉ item.csnToTxtimeMap

/-- The messages that wait have recorded different numbers, their key among them. -/
structure DistinctCsns (s : Endpoint) : Prop where
  key : ∀ (key : ℕ) (item : TexedCtrQueueItem), s.txedCtrQueue[key]? = some item →
    key ∈ item.csnToTxtimeMap
  distinct : ∀ (key key' : ℕ) (item item' : TexedCtrQueueItem) (n : ℕ),
    s.txedCtrQueue[key]? = some item → s.txedCtrQueue[key']? = some item' →
    n ∈ item.csnToTxtimeMap → n ∈ item'.csnToTxtimeMap → key = key'

/-- An own number is taken clear of the reverse TSUs turned round, and a reverse TSU is
turned round when nothing that waits has its number. -/
def clearOfForwarded : Rule where
  new s := ∀ e ∈ s.txedCtrQueue.toList, e.2.forwarded → e.1 ≠ s.mxCtrSeqNumber
  turn s n := ∀ e ∈ s.txedCtrQueue.toList, n ∉ e.2.csnToTxtimeMap
  resend s := ∀ e ∈ s.txedCtrQueue.toList, e.2.forwarded → e.1 ≠ s.mxCtrSeqNumber

instance clearOfForwarded.decidableNew (s : Endpoint) : Decidable (clearOfForwarded.new s) :=
  inferInstanceAs (Decidable (∀ e ∈ s.txedCtrQueue.toList, _ → _))

instance clearOfForwarded.decidableTurn (s : Endpoint) (n : ℕ) :
    Decidable (clearOfForwarded.turn s n) :=
  inferInstanceAs (Decidable (∀ e ∈ s.txedCtrQueue.toList, _))

instance clearOfForwarded.decidableResend (s : Endpoint) : Decidable (clearOfForwarded.resend s) :=
  inferInstanceAs (Decidable (∀ e ∈ s.txedCtrQueue.toList, _ → _))

section Distinct
variable {s s' : Endpoint} {n csn : ℕ} {item : TexedCtrQueueItem}

theorem mem_times_insert {t : Std.TreeMap ℕ ℕ} {k v n : ℕ} :
    n ∈ t.insert k v ↔ n = k ∨ n ∈ t := by
  rw [Std.TreeMap.mem_insert, Std.compare_eq_iff_eq, @eq_comm _ k n]

theorem mem_times_singleton {k v n : ℕ} : n ∈ (∅ : Std.TreeMap ℕ ℕ).insert k v ↔ n = k := by
  rw [mem_times_insert]
  simp

namespace DistinctCsns

theorem congr (h : DistinctCsns s) (hq : s'.txedCtrQueue = s.txedCtrQueue) : DistinctCsns s' := by
  refine ⟨?_, ?_⟩
  · rw [hq]; exact h.key
  · rw [hq]; exact h.distinct

theorem erase (h : DistinctCsns s) (key : ℕ) :
    DistinctCsns { s with txedCtrQueue := s.txedCtrQueue.erase key } :=
  ⟨fun _ _ hq => h.key _ _ (erase_some hq).2,
    fun _ _ _ _ _ hq hq' => h.distinct _ _ _ _ _ (erase_some hq).2 (erase_some hq').2⟩

theorem insert (h : DistinctCsns s) (key : ℕ) (item : TexedCtrQueueItem)
    (hkey : key ∈ item.csnToTxtimeMap)
    (hnew : ∀ (key' : ℕ) (item' : TexedCtrQueueItem) (n : ℕ), key' ≠ key →
      s.txedCtrQueue[key']? = some item' → n ∈ item.csnToTxtimeMap →
      n ∉ item'.csnToTxtimeMap) :
    DistinctCsns { s with txedCtrQueue := s.txedCtrQueue.insert key item } := by
  refine ⟨?_, ?_⟩
  · intro key' item' hq
    rcases insert_some hq with ⟨rfl, rfl⟩ | ⟨-, hq⟩
    · exact hkey
    · exact h.key _ _ hq
  · intro key1 key2 item1 item2 n hq1 hq2 hn1 hn2
    rcases insert_some hq1 with ⟨h1, rfl⟩ | ⟨hne1, hold1⟩
    · rcases insert_some hq2 with ⟨h2, -⟩ | ⟨hne2, hold2⟩
      · exact h1.trans h2.symm
      · exact absurd hn2 (hnew _ _ _ hne2 hold2 hn1)
    · rcases insert_some hq2 with ⟨-, rfl⟩ | ⟨-, hold2⟩
      · exact absurd hn1 (hnew _ _ _ hne1 hold1 hn2)
      · exact h.distinct _ _ _ _ _ hold1 hold2 hn1 hn2

theorem sendCtrlMsg (h : DistinctCsns s) (header : MxControlHeader) (forwarded : Bool)
    (hn : Unrecorded s header.sequenceNumber) :
    DistinctCsns (s.sendCtrlMsg header forwarded) := by
  refine (h.insert header.sequenceNumber ⟨header, _, s.idents, forwarded⟩
    (mem_times_singleton.mpr rfl) ?_).congr rfl
  intro key' item' n _ hq hm
  rw [mem_times_singleton.mp hm]
  exact hn _ _ hq

theorem resend (h : DistinctCsns s) (hq : s.txedCtrQueue[csn]? = some item)
    (hn : Unrecorded s s.mxCtrSeqNumber) : DistinctCsns (s.resend csn item) := by
  refine (h.insert csn (s.renewItem item) (mem_times_insert.mpr (.inr (h.key _ _ hq))) ?_).congr rfl
  intro key' item' n hne hq' hm
  rcases mem_times_insert.mp hm with rfl | hm
  · exact hn _ _ hq'
  · exact fun hm' => hne (h.distinct _ _ _ _ _ hq' hq hm' hm)

theorem contains_false (h : DistinctCsns s) (hn : Unrecorded s n) :
    s.txedCtrQueue.contains n = false := by
  rw [← Bool.not_eq_true, Std.TreeMap.contains_iff_mem]
  intro hm
  obtain ⟨item, hq⟩ := Option.isSome_iff_exists.mp
    (Std.TreeMap.mem_iff_isSome_getElem?.mp hm)
  exact hn _ _ hq (h.key _ _ hq)

theorem ackLookup (h : DistinctCsns s) {key sendTime : ℕ}
    (hl : s.ackLookup csn = some (key, item, sendTime)) :
    csn ∈ item.csnToTxtimeMap ∧
      ∀ (key' : ℕ) (item' : TexedCtrQueueItem), s.txedCtrQueue[key']? = some item' →
        csn ∈ item'.csnToTxtimeMap → key' = key := by
  have hq := ackLookup_some hl
  have hrec : csn ∈ item.csnToTxtimeMap := by
    unfold Endpoint.ackLookup at hl
    cases hc : s.txedCtrQueue[csn]? with
    | some item' =>
      simp only [hc, Option.some.injEq, Prod.mk.injEq] at hl
      obtain ⟨rfl, rfl, -⟩ := hl
      exact h.key _ _ hq
    | none =>
      simp only [hc, Option.map_eq_some_iff, Prod.mk.injEq] at hl
      obtain ⟨e, he, rfl, rfl, -⟩ := hl
      have hc := List.find?_some he
      exact Std.TreeMap.contains_iff_mem.mp hc
  exact ⟨hrec, fun key' item' hq' hm => h.distinct _ _ _ _ _ hq' hq hm hrec⟩

end DistinctCsns
end Distinct

/-- The counter stands at the count of own numbers; what waits has recorded numbers drawn
before, except for the number a turned TSU came with. -/
structure Drawn (s : Endpoint) (drawn : ℕ) : Prop where
  csns : DistinctCsns s
  asserts : s.failedAsserts = []
  count : drawn ≤ s.sends
  number : s.mxCtrSeqNumber = drawn % 65536
  below : ∀ (key : ℕ) (item : TexedCtrQueueItem), s.txedCtrQueue[key]? = some item →
    ∀ n ∈ item.csnToTxtimeMap, n < drawn ∨ (item.forwarded ∧ n = key)

namespace Drawn
variable {s s' : Endpoint} {drawn csn : ℕ} {item : TexedCtrQueueItem}

theorem congr (h : Drawn s drawn) (hq : s'.txedCtrQueue = s.txedCtrQueue)
    (hn : s'.mxCtrSeqNumber = s.mxCtrSeqNumber) (hc : s.sends ≤ s'.sends)
    (ha : s'.failedAsserts = s.failedAsserts) : Drawn s' drawn := by
  refine ⟨h.csns.congr hq, ha.trans h.asserts, h.count.trans hc, hn.trans h.number, ?_⟩
  rw [hq]
  exact h.below

theorem erase (h : Drawn s drawn) (key : ℕ) :
    Drawn { s with txedCtrQueue := s.txedCtrQueue.erase key } drawn :=
  ⟨h.csns.erase key, h.asserts, h.count, h.number, fun _ _ hq => h.below _ _ (erase_some hq).2⟩

theorem unrecorded (h : Drawn s drawn) (hlt : s.sends < 65536) (hr : clearOfForwarded.new s) :
    Unrecorded s s.mxCtrSeqNumber := by
  intro key item hq hm
  have hcount := h.count
  rcases h.below _ _ hq _ hm with hlt' | ⟨hf, heq⟩
  · rw [h.number, Nat.mod_eq_of_lt (by omega)] at hlt'
    exact Nat.lt_irrefl _ hlt'
  · exact hr (key, item) (Std.TreeMap.mem_toList_iff_getElem?_eq_some.mpr hq) hf heq.symm

theorem sends_sendCtrlMsg (s : Endpoint) (header : MxControlHeader) (forwarded : Bool) :
    (s.sendCtrlMsg header forwarded).sends = s.sends + 1 := by
  simp [Endpoint.sendCtrlMsg, transmit, sends, isSent]

theorem sendNew (h : Drawn s drawn) (hlt : s.sends < 65536) (hr : clearOfForwarded.new s)
    (header : MxControlHeader) : Drawn (s.sendNew header) (drawn + 1) := by
  have hun := h.unrecorded hlt hr
  have hnum : s.mxCtrSeqNumber = drawn := by
    rw [h.number, Nat.mod_eq_of_lt (lt_of_le_of_lt h.count hlt)]
  have htake : DistinctCsns s.takeNumber := h.csns.congr rfl
  refine ⟨htake.sendCtrlMsg _ _ hun, ?_, ?_, ?_, ?_⟩
  · simp only [Endpoint.sendNew, Endpoint.sendCtrlMsg, takeNumber,
      MxControlHeader.setSequenceNumber, h.csns.contains_false hun]
    exact h.asserts
  · have hcount := h.count
    have hsends : (s.sendNew header).sends = s.sends + 1 := sends_sendCtrlMsg _ _ _
    omega
  · show (s.mxCtrSeqNumber + 1) % 65536 = _
    rw [h.number, Nat.mod_add_mod]
  · intro key item hq n hm
    rcases insert_some hq with ⟨rfl, rfl⟩ | ⟨-, hq⟩
    · have hn : n = s.mxCtrSeqNumber := mem_times_singleton.mp hm
      exact .inl (by omega)
    · exact (h.below _ _ hq n hm).imp_left Nat.lt_succ_of_lt

theorem rcvReverseTsu (h : Drawn s drawn) (header : MxControlHeader)
    (hr : clearOfForwarded.turn s header.sequenceNumber) :
    Drawn (s.rcvReverseTsu header) drawn := by
  have hun : Unrecorded s header.sequenceNumber := fun key item hq =>
    hr (key, item) (Std.TreeMap.mem_toList_iff_getElem?_eq_some.mpr hq)
  refine ⟨h.csns.sendCtrlMsg _ _ hun, ?_, ?_, h.number, ?_⟩
  · simp only [Endpoint.rcvReverseTsu, Endpoint.sendCtrlMsg, h.csns.contains_false hun]
    exact h.asserts
  · have hsends : (s.rcvReverseTsu header).sends = s.sends + 1 := sends_sendCtrlMsg _ _ _
    have hcount := h.count
    omega
  · intro key item hq n hm
    rcases insert_some hq with ⟨rfl, rfl⟩ | ⟨-, hq⟩
    · exact .inr ⟨rfl, mem_times_singleton.mp hm⟩
    · exact h.below _ _ hq n hm

theorem resend (h : Drawn s drawn) (hlt : s.sends < 65536) (hr : clearOfForwarded.new s)
    (hq : s.txedCtrQueue[csn]? = some item) : Drawn (s.resend csn item) (drawn + 1) := by
  have hun := h.unrecorded hlt hr
  have hnum : s.mxCtrSeqNumber = drawn := by
    rw [h.number, Nat.mod_eq_of_lt (lt_of_le_of_lt h.count hlt)]
  refine ⟨h.csns.resend hq hun, h.asserts, ?_, ?_, ?_⟩
  · have hsends : (s.resend csn item).sends = s.sends + 1 := by
      simp [Endpoint.resend, transmit, takeNumber, sends, isSent]
    have hcount := h.count
    omega
  · show (s.mxCtrSeqNumber + 1) % 65536 = _
    rw [h.number, Nat.mod_add_mod]
  · intro key item' hq' n hm
    rcases insert_some hq' with ⟨rfl, rfl⟩ | ⟨-, hq'⟩
    · rcases mem_times_insert.mp hm with rfl | hm
      · exact .inl (by omega)
      · exact (h.below _ _ hq n hm).imp_left Nat.lt_succ_of_lt
    · exact (h.below _ _ hq' n hm).imp_left Nat.lt_succ_of_lt

end Drawn

theorem sends_append (s : Endpoint) (rec : CtrlRecord) :
    s.sends ≤ ({ s with log := s.log ++ [rec] } : Endpoint).sends := by
  simp [sends]

theorem drawn_keeps :
    Keeps clearOfForwarded fun s => s.sends < 65536 → ∃ drawn, Drawn s drawn := by
  have hnew : ∀ {s : Endpoint} (header : MxControlHeader),
      (s.sends < 65536 → ∃ drawn, Drawn s drawn) → clearOfForwarded.new s →
      (s.sendNew header).sends < 65536 → ∃ drawn, Drawn (s.sendNew header) drawn := by
    intro s header hP hr hlt
    have hsends : (s.sendNew header).sends = s.sends + 1 := Drawn.sends_sendCtrlMsg _ _ _
    obtain ⟨drawn, h⟩ := hP (by omega)
    exact ⟨drawn + 1, h.sendNew (by omega) hr header⟩
  refine ⟨?_, hnew, ?_, ?_, ?_, ?_⟩
  · intro s s' hs hP hlt
    have hsends : s'.sends = s.sends := congrArg (List.countP isSent) hs.log
    obtain ⟨drawn, h⟩ := hP (by omega)
    exact ⟨drawn, h.congr hs.queue hs.number (by omega) hs.asserts⟩
  · intro s header hP hr hlt
    have hsends : (s.rcvReverseTsu header).sends = s.sends + 1 := Drawn.sends_sendCtrlMsg _ _ _
    obtain ⟨drawn, h⟩ := hP (by omega)
    exact ⟨drawn, h.rcvReverseTsu header hr⟩
  · intro s csn hP _ _ hlt
    obtain ⟨drawn, h⟩ := hP hlt
    exact ⟨drawn, h.congr rfl rfl (Nat.le_refl _) rfl⟩
  · intro s csn item a hP _ hq hr
    have hq' : (s.fire csn).txedCtrQueue[csn]? = some item := hq
    have hf : (s.fire csn).sends < 65536 → ∃ drawn, Drawn (s.fire csn) drawn := by
      intro hlt
      obtain ⟨drawn, h⟩ := hP hlt
      exact ⟨drawn, h.congr rfl rfl (Nat.le_refl _) rfl⟩
    simp only [retxCtrlMsgExpires, hq', Rule.expiry] at hr ⊢
    split_ifs at hr ⊢ with hx hqos
    · have hmark : ((s.fire csn).markGivenUp item).sends < 65536 →
          ∃ drawn, Drawn ((s.fire csn).markGivenUp item) drawn := by
        have hle : (s.fire csn).sends ≤ ((s.fire csn).markGivenUp item).sends :=
          sends_append (s.fire csn) _
        intro hlt
        obtain ⟨drawn, h⟩ := hf (by omega)
        exact ⟨drawn, h.congr rfl rfl hle rfl⟩
      simp only [giveUp]
      split_ifs with hasks
      · intro hlt
        obtain ⟨drawn, h⟩ := Rule.newAll_keeps hnew hmark (hr hasks) hlt
        exact ⟨drawn, h.erase csn⟩
      · intro hlt
        obtain ⟨drawn, h⟩ := hmark hlt
        exact ⟨drawn, h.erase csn⟩
    · intro hlt
      have hle : (s.fire csn).sends ≤ ((s.fire csn).failTest csn item).sends :=
        sends_append (s.fire csn) _
      obtain ⟨drawn, h⟩ := hf (by omega)
      exact ⟨drawn, (h.erase csn).congr rfl rfl hle rfl⟩
    · intro hlt
      have hsends : ((s.fire csn).resend csn item).sends = (s.fire csn).sends + 1 := by
        simp [resend, transmit, takeNumber, sends, isSent]
      obtain ⟨drawn, h⟩ := hf (by omega)
      exact ⟨drawn + 1, h.resend (by omega) (hr hqos) hq'⟩
  · intro s csn key item sendTime hP _ hlt
    have hle : s.sends ≤ (s.acknowledge key item sendTime).sends := sends_append s _
    obtain ⟨drawn, h⟩ := hP (by omega)
    exact ⟨drawn, (h.erase key).congr rfl rfl hle rfl⟩

/-- No number waits twice, `SendCtrlMsg` met its assertion, and an ACK is for one message. -/
structure UniqueCsns (s : Endpoint) : Prop where
  csns : DistinctCsns s
  asserts : s.failedAsserts = []
  ack : ∀ (csn key sendTime : ℕ) (item : TexedCtrQueueItem),
    s.ackLookup csn = some (key, item, sendTime) → csn ∈ item.csnToTxtimeMap ∧
      ∀ (key' : ℕ) (item' : TexedCtrQueueItem), s.txedCtrQueue[key']? = some item' →
        csn ∈ item'.csnToTxtimeMap → key' = key

theorem outstanding_csns_unique (config : EndpointConfig) (linkState : LinkState)
    (links : LinkIds) {es : List Event} {s : Endpoint}
    (h : (machine.restrict clearOfForwarded.Allows).Reaches (start config linkState links) es s)
    (hlt : s.sends < 65536) : UniqueCsns s := by
  have hinit : (start config linkState links).sends < 65536 →
      ∃ drawn, Drawn (start config linkState links) drawn := by
    refine fun _ => ⟨0, ⟨?_, ?_⟩, rfl, Nat.zero_le _, rfl, ?_⟩
    · intro key item hq
      simp [start] at hq
    · intro key key' item item' n hq
      simp [start] at hq
    · intro key item hq
      simp [start] at hq
  obtain ⟨drawn, hd⟩ := drawn_keeps.run hinit h hlt
  exact ⟨hd.csns, hd.asserts, fun _ _ _ _ hl => hd.csns.ackLookup hl⟩

def qosServer : Endpoint :=
  start { serverRoleEnabled := true, qosSteerEnabled := true } { cidList := [0, 2] }
    ⟨[0, 2], LinkIds.pair_sorted⟩

def reverseTsu (csn : ℕ) : MxControlHeader :=
  { type := .tsu, connectionId := 2, sequenceNumber := csn, linkStatus := 1, reverseFlag := 1
    kVector := [0, 1], owdVector := [255, 255], queueingDelayVector := [255, 255] }

theorem outstanding_csns_unique_reverse :
    UniqueCsns (machine.exec qosServer
      [.probe 1, .recv (reverseTsu 9) {}, .expire 9 {}, .expire 0 {}]) := by
  have h : (machine.restrict clearOfForwarded.Allows).Reaches qosServer
      [.probe 1, .recv (reverseTsu 9) {}, .expire 9 {}, .expire 0 {}]
      ((machine.restrict clearOfForwarded.Allows).exec qosServer
        [.probe 1, .recv (reverseTsu 9) {}, .expire 9 {}, .expire 0 {}]) :=
    Machine.Permits.reaches (by decide +kernel)
  exact outstanding_csns_unique _ _ _ h (by decide +kernel)

theorem reverse_tsu_takes_outstanding_csn :
    ∃ s, machine.Reaches qosServer [.probe 1, .recv (reverseTsu 1) {}] s ∧ s.sends < 65536 ∧
      ¬ UniqueCsns s := by
  refine ⟨_, Machine.Permits.reaches (by decide +kernel), by decide +kernel, fun h => ?_⟩
  exact absurd h.asserts (by decide +kernel)

end Endpoint
end NetGymSim.Gma

import NetGymSim.Gma.ControlNumbers

/-!
# Round trip times from ACKs

An ACK for the first number of a message is timed from the first entry of
`m_csnToTxtimeMap`, which is the one with the smallest number, whereas an ACK for
a retransmission looks its own number up. The two agree as long as the first number is
the smallest: a retransmission gets a smaller one when the counter has wrapped, or when
the message is a reverse TSU that kept the number of the peer.
-/

namespace NetGymSim.Gma
open NetGymSim.Lib
namespace Endpoint

def KeysRecorded (s : Endpoint) : Prop :=
  ∀ (key : ℕ) (item : TexedCtrQueueItem), s.txedCtrQueue[key]? = some item →
    key ∈ item.csnToTxtimeMap

namespace KeysRecorded
variable {s s' : Endpoint}

theorem congr (h : KeysRecorded s) (hq : s'.txedCtrQueue = s.txedCtrQueue) : KeysRecorded s' := by
  rw [KeysRecorded, hq]
  exact h

theorem erase (h : KeysRecorded s) (key : ℕ) :
    KeysRecorded { s with txedCtrQueue := s.txedCtrQueue.erase key } :=
  fun _ _ hq => h _ _ (erase_some hq).2

theorem insert (h : KeysRecorded s) {key : ℕ} {item : TexedCtrQueueItem}
    (hkey : key ∈ item.csnToTxtimeMap) :
    KeysRecorded { s with txedCtrQueue := s.txedCtrQueue.insert key item } := by
  intro key' item' hq
  rcases insert_some hq with ⟨rfl, rfl⟩ | ⟨-, hq⟩
  · exact hkey
  · exact h _ _ hq

theorem sendCtrlMsg (h : KeysRecorded s) (header : MxControlHeader) (forwarded : Bool) :
    KeysRecorded (s.sendCtrlMsg header forwarded) := by
  let item : TexedCtrQueueItem :=
    ⟨header, (∅ : Std.TreeMap ℕ ℕ).insert header.sequenceNumber s.now, s.idents, forwarded⟩
  have hkey : header.sequenceNumber ∈ item.csnToTxtimeMap := Std.TreeMap.mem_insert_self
  exact (h.insert hkey).congr rfl

theorem resend (h : KeysRecorded s) {csn : ℕ} {item : TexedCtrQueueItem}
    (hq : s.txedCtrQueue[csn]? = some item) : KeysRecorded (s.resend csn item) := by
  have hkey : csn ∈ (s.renewItem item).csnToTxtimeMap :=
    Std.TreeMap.mem_insert.mpr (.inr (h _ _ hq))
  exact (h.insert hkey).congr rfl

end KeysRecorded

theorem keysRecorded_keeps : Keeps anyNumber KeysRecorded := by
  have hnew : ∀ {s : Endpoint} (header : MxControlHeader), KeysRecorded s → anyNumber.new s →
      KeysRecorded (s.sendNew header) := by
    intro s header h _
    have ht : KeysRecorded s.takeNumber := h.congr rfl
    exact ht.sendCtrlMsg _ _
  refine ⟨?_, hnew, ?_, ?_, ?_, ?_⟩
  · intro s s' hs h
    exact h.congr hs.queue
  · intro s header h _
    exact h.sendCtrlMsg _ _
  · intro s csn h _ _
    exact h.congr rfl
  · intro s csn item a h _ hq _
    have hf : KeysRecorded (s.fire csn) := h.congr rfl
    have hq' : (s.fire csn).txedCtrQueue[csn]? = some item := hq
    simp only [retxCtrlMsgExpires, hq']
    split_ifs
    · have hmark : KeysRecorded ((s.fire csn).markGivenUp item) := hf.congr rfl
      simp only [giveUp]
      split_ifs
      · exact (Rule.newAll_keeps hnew hmark (anyNumber_newAll _ _)).erase csn
      · exact hmark.erase csn
    · exact (hf.erase csn).congr rfl
    · exact hf.resend hq'
  · intro s csn key item sendTime h _
    exact (h.erase key).congr rfl

theorem keysRecorded_start (config : EndpointConfig) (linkState : LinkState) (links : LinkIds) :
    KeysRecorded (start config linkState links) := by
  intro key item hq
  simp [start] at hq

section Times
variable {t : Std.TreeMap ℕ ℕ}

def EarliestKey (t : Std.TreeMap ℕ ℕ) (n v : ℕ) : Prop := t[n]? = some v ∧ ∀ k ∈ t, n ≤ k

theorem head_earliestKey {e : ℕ × ℕ} (h : t.toList.head? = some e) : EarliestKey t e.1 e.2 := by
  cases hl : t.toList with
  | nil => simp [hl] at h
  | cons first rest =>
    rw [hl] at h
    obtain rfl : first = e := Option.some.inj h
    have hget : t[first.1]? = some first.2 :=
      Std.TreeMap.mem_toList_iff_getElem?_eq_some.mp (by rw [hl]; exact List.mem_cons_self)
    refine ⟨hget, ?_⟩
    intro k hk
    obtain ⟨v, hv⟩ := Option.isSome_iff_exists.mp (Std.TreeMap.mem_iff_isSome_getElem?.mp hk)
    have hmem : (k, v) ∈ t.toList := Std.TreeMap.mem_toList_iff_getElem?_eq_some.mpr hv
    rw [hl] at hmem
    rcases List.mem_cons.mp hmem with heq | hrest
    · rw [← heq]
    · have hord := t.ordered_keys_toList
      rw [hl] at hord
      have hlt := (List.pairwise_cons.mp hord).1 _ hrest
      exact (Nat.compare_eq_lt.mp hlt).le

theorem EarliestKey.unique {n v n' v' : ℕ} (h : EarliestKey t n v) (h' : EarliestKey t n' v') :
    v = v' := by
  have hmem : n ∈ t := Std.TreeMap.mem_iff_isSome_getElem?.mpr (by rw [h.1]; rfl)
  have hmem' : n' ∈ t := Std.TreeMap.mem_iff_isSome_getElem?.mpr (by rw [h'.1]; rfl)
  have hn : n = n' := Nat.le_antisymm (h.2 n' hmem') (h'.2 n hmem)
  subst hn
  exact Option.some.inj (h.1.symm.trans h'.1)

theorem exists_earliestKey {k : ℕ} (hk : k ∈ t) :
    ∃ e, t.toList.head? = some e ∧ EarliestKey t e.1 e.2 := by
  obtain ⟨v, hv⟩ := Option.isSome_iff_exists.mp (Std.TreeMap.mem_iff_isSome_getElem?.mp hk)
  have hmem : (k, v) ∈ t.toList := Std.TreeMap.mem_toList_iff_getElem?_eq_some.mpr hv
  cases hl : t.toList with
  | nil => rw [hl] at hmem; cases hmem
  | cons first rest =>
    have hhead : t.toList.head? = some first := by rw [hl]; rfl
    exact ⟨first, rfl, head_earliestKey hhead⟩

end Times

def rttMs (now sendTime : ℕ) : ℕ := (((now : ℤ) - sendTime) % 4294967296).toNat

theorem rttMs_eq_iff (now t t' : ℕ) :
    rttMs now t = rttMs now t' ↔ t % 4294967296 = t' % 4294967296 := by
  unfold rttMs
  omega

/-- The first argument of the call of `UpdateRtt` that an ACK or a TSA leads to. -/
def updateRttArg (s : Endpoint) (header : MxControlHeader) : Option ℕ :=
  (s.ackLookup header.sequenceNumber).map fun e => rttMs s.now e.2.2

/-- Whatever message an ACK or a TSA answers, and whichever of its transmissions, the sample
is the time since that transmission. -/
def RttExact (s : Endpoint) (header : MxControlHeader) (a : Answers) : Prop :=
  ∀ (key : ℕ) (item : TexedCtrQueueItem) (t : ℕ), s.txedCtrQueue[key]? = some item →
    item.csnToTxtimeMap[header.sequenceNumber]? = some t →
    (s.recvLinkMap header a).updateRttArg header = some (rttMs s.now t)

def SameTime (t t' : ℕ) : Prop := t % 4294967296 = t' % 4294967296

instance (t t' : ℕ) : Decidable (SameTime t t') :=
  inferInstanceAs (Decidable (t % 4294967296 = t' % 4294967296))

/-- The first number of a message is the smallest it has recorded, or was taken at the time of
the smallest; and no two messages that wait have recorded the number at different times. -/
structure TimesAgree (s : Endpoint) (csn : ℕ) : Prop where
  first : ∀ (item : TexedCtrQueueItem) (n t t' : ℕ), s.txedCtrQueue[csn]? = some item →
    EarliestKey item.csnToTxtimeMap n t → item.csnToTxtimeMap[csn]? = some t' → SameTime t t'
  shared : ∀ (key key' : ℕ) (item item' : TexedCtrQueueItem) (t t' : ℕ),
    s.txedCtrQueue[key]? = some item → s.txedCtrQueue[key']? = some item' →
    item.csnToTxtimeMap[csn]? = some t → item'.csnToTxtimeMap[csn]? = some t' → SameTime t t'

theorem timesAgree_iff (s : Endpoint) (csn : ℕ) : s.TimesAgree csn ↔
    (∀ item ∈ s.txedCtrQueue[csn]?, ∀ e ∈ item.csnToTxtimeMap.toList.head?,
      ∀ t ∈ item.csnToTxtimeMap[csn]?, SameTime e.2 t) ∧
    ∀ e ∈ s.txedCtrQueue.toList, ∀ e' ∈ s.txedCtrQueue.toList,
      ∀ t ∈ e.2.csnToTxtimeMap[csn]?, ∀ t' ∈ e'.2.csnToTxtimeMap[csn]?, SameTime t t' := by
  constructor
  · intro h
    refine ⟨?_, ?_⟩
    · intro item hq e he t ht
      exact h.first item e.1 e.2 t hq (head_earliestKey he) ht
    · intro e he e' he' t ht t' ht'
      exact h.shared e.1 e'.1 e.2 e'.2 t t' (Std.TreeMap.mem_toList_iff_getElem?_eq_some.mp he)
        (Std.TreeMap.mem_toList_iff_getElem?_eq_some.mp he') ht ht'
  · rintro ⟨hfirst, hshared⟩
    refine ⟨?_, ?_⟩
    · intro item n t t' hq hearly ht'
      have hmem : n ∈ item.csnToTxtimeMap :=
        Std.TreeMap.mem_iff_isSome_getElem?.mpr (by rw [hearly.1]; rfl)
      obtain ⟨e, he, hearly'⟩ := exists_earliestKey hmem
      rw [hearly.unique hearly']
      exact hfirst item hq e he t' ht'
    · intro key key' item item' t t' hq hq' ht ht'
      exact hshared (key, item) (Std.TreeMap.mem_toList_iff_getElem?_eq_some.mpr hq) (key', item')
        (Std.TreeMap.mem_toList_iff_getElem?_eq_some.mpr hq') t ht t' ht'

instance (s : Endpoint) (csn : ℕ) : Decidable (s.TimesAgree csn) :=
  decidable_of_iff _ (s.timesAgree_iff csn).symm

section Lookup
variable {s : Endpoint} {csn key t : ℕ} {item : TexedCtrQueueItem}

theorem ackLookup_first (hk : KeysRecorded s) (hq : s.txedCtrQueue[csn]? = some item) :
    ∃ n t, EarliestKey item.csnToTxtimeMap n t ∧ s.ackLookup csn = some (csn, item, t) := by
  obtain ⟨e, he, hearly⟩ := exists_earliestKey (hk csn item hq)
  refine ⟨e.1, e.2, hearly, ?_⟩
  simp only [ackLookup, hq, he, Option.map_some, Option.getD_some]

theorem ackLookup_retx (hnone : s.txedCtrQueue[csn]? = none)
    (hq : s.txedCtrQueue[key]? = some item) (ht : item.csnToTxtimeMap[csn]? = some t) :
    ∃ key' item' t', s.txedCtrQueue[key']? = some item' ∧
      item'.csnToTxtimeMap[csn]? = some t' ∧ s.ackLookup csn = some (key', item', t') := by
  have hrec : item.csnToTxtimeMap.contains csn = true :=
    Std.TreeMap.contains_iff_mem.mpr (Std.TreeMap.mem_iff_isSome_getElem?.mpr (by rw [ht]; rfl))
  obtain ⟨e, he⟩ : ∃ e, s.txedCtrQueue.toList.find?
      (fun e => e.2.csnToTxtimeMap.contains csn) = some e := by
    apply Option.isSome_iff_exists.mp
    rw [List.find?_isSome]
    exact ⟨(key, item), Std.TreeMap.mem_toList_iff_getElem?_eq_some.mpr hq, hrec⟩
  have hmem := List.mem_of_find?_eq_some he
  have hfound := List.find?_some he
  have hcsn := Std.TreeMap.contains_iff_mem.mp hfound
  obtain ⟨t', ht'⟩ := Option.isSome_iff_exists.mp (Std.TreeMap.mem_iff_isSome_getElem?.mp hcsn)
  refine ⟨e.1, e.2, t', Std.TreeMap.mem_toList_iff_getElem?_eq_some.mp hmem, ht', ?_⟩
  simp only [ackLookup, hnone, he, Option.map_some, ht', Option.getD_some]

theorem updateRttArg_recvLinkMap {header : MxControlHeader} (a : Answers)
    (htype : header.type = .ack ∨ header.type = .tsa) :
    (s.recvLinkMap header a).updateRttArg header = s.updateRttArg header := by
  have hasks : ¬ s.asksTsu header a := by
    rintro ⟨⟨h, -⟩, -⟩
    rcases htype with ht | ht <;> rw [ht] at h <;> simp at h
  unfold recvLinkMap
  rw [if_neg hasks]
  rfl

end Lookup

theorem rttExact_iff {s : Endpoint} (hk : KeysRecorded s) {header : MxControlHeader} (a : Answers)
    (htype : header.type = .ack ∨ header.type = .tsa) :
    s.RttExact header a ↔ s.TimesAgree header.sequenceNumber := by
  have harg := updateRttArg_recvLinkMap (s := s) a htype
  constructor
  · intro h
    refine ⟨?_, ?_⟩
    · intro item n t t' hq hearly ht'
      have hx := h header.sequenceNumber item t' hq ht'
      obtain ⟨n', t'', hearly', hl⟩ := ackLookup_first hk hq
      rw [harg, updateRttArg, hl] at hx
      rw [hearly.unique hearly']
      exact (rttMs_eq_iff s.now t'' t').mp (Option.some.inj hx)
    · intro key key' item item' t t' hq hq' ht ht'
      have hx := (h key item t hq ht).symm.trans (h key' item' t' hq' ht')
      exact (rttMs_eq_iff s.now t t').mp (Option.some.inj hx)
  · intro h key item t hq ht
    rw [harg]
    cases hfirst : s.txedCtrQueue[header.sequenceNumber]? with
    | some item₀ =>
      obtain ⟨n, t₀, hearly, hl⟩ := ackLookup_first hk hfirst
      obtain ⟨t₁, ht₁⟩ := Option.isSome_iff_exists.mp
        (Std.TreeMap.mem_iff_isSome_getElem?.mp (hk _ _ hfirst))
      have h01 : SameTime t₀ t₁ := h.first item₀ n t₀ t₁ hfirst hearly ht₁
      have h1 : SameTime t₁ t := h.shared _ key item₀ item t₁ t hfirst hq ht₁ ht
      rw [updateRttArg, hl]
      exact congrArg some ((rttMs_eq_iff s.now t₀ t).mpr (h01.trans h1))
    | none =>
      obtain ⟨key', item', t', hq', ht', hl⟩ := ackLookup_retx hfirst hq ht
      rw [updateRttArg, hl]
      exact congrArg some ((rttMs_eq_iff s.now t' t).mpr (h.shared _ _ _ _ _ _ hq' hq ht' ht))

theorem rtt_sample_exact_iff (config : EndpointConfig) (linkState : LinkState) (links : LinkIds)
    {es : List Event} {s : Endpoint} (h : machine.Reaches (start config linkState links) es s)
    (header : MxControlHeader) (a : Answers) (htype : header.type = .ack ∨ header.type = .tsa) :
    s.RttExact header a ↔ s.TimesAgree header.sequenceNumber := by
  have hk : KeysRecorded s :=
    keysRecorded_keeps.run_any (keysRecorded_start config linkState links) h
  exact rttExact_iff hk a htype

theorem rtt_sample_exact_retx :
    (machine.exec qosServer [.probe 1, .wait 100, .expire 0 {}, .wait 50]).RttExact
      { type := .ack, connectionId := 0, sequenceNumber := 2 } {} :=
  (rtt_sample_exact_iff _ _ _ (Machine.Permits.reaches (by decide +kernel)) _ _ (.inl rfl)).mpr
    (by decide +kernel)

/-- The reverse TSU with the number 9 is sent again after 100 ms under the number 0. -/
theorem reverse_tsu_rtt_too_small :
    ∃ s, machine.Reaches qosServer
        [.recv (reverseTsu 9) {}, .wait 100, .expire 9 {}, .wait 50] s ∧ s.now = 150 ∧
      s.updateRttArg { type := .ack, connectionId := 2, sequenceNumber := 9 } = some 50 ∧
      ¬ s.RttExact { type := .ack, connectionId := 2, sequenceNumber := 9 } {} := by
  refine ⟨machine.exec qosServer [.recv (reverseTsu 9) {}, .wait 100, .expire 9 {}, .wait 50],
    Machine.Permits.reaches (by decide +kernel), by decide +kernel, by decide +kernel, ?_⟩
  intro h
  have hk : KeysRecorded (machine.exec qosServer
      [.recv (reverseTsu 9) {}, .wait 100, .expire 9 {}, .wait 50]) :=
    keysRecorded_keeps.run_any (keysRecorded_start _ _ _)
      (Machine.Permits.reaches (by decide +kernel))
  exact absurd ((rttExact_iff hk _ (.inl rfl)).mp h) (by decide +kernel)

end Endpoint
end NetGymSim.Gma

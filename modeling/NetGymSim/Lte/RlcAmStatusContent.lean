import NetGymSim.Lte.RlcAmHeaderCodec
import NetGymSim.Lte.RlcAmRxWindow

/-!
# What a STATUS PDU reports

The missing numbers are collected from VR(R) on until VR(MS) or until no more fit. The
acknowledged number is then moved over what has been received, so that it is the first one
neither received nor listed.
-/

namespace NetGymSim.Lte
open NetGymSim.Lib
namespace LteRlcAm
open LteRlcAmHeader

def RxBefore (s : LteRlcAm) (n stop : ℕ) : Prop :=
  n < 1024 ∧ forward 1024 n s.vrR.value < forward 1024 stop s.vrR.value

def missing (s : LteRlcAm) (k : ℕ) : List ℕ :=
  ((List.range k).map fun d => (s.vrR.value + d) % 1024).filter fun n => ¬ s.complete n

def listing (nacks : List ℕ) : LteRlcAmHeader :=
  { ({} : LteRlcAmHeader).setControlPdu statusPdu with
    nackSnList := nacks
    headerLength := statusLength nacks.length % 65536 }

theorem listing_pushNack (nacks : List ℕ) (n : ℕ) :
    (listing nacks).pushNack n = listing (nacks ++ [n]) := by
  have hlen : (statusLength nacks.length % 65536 +
      if (nacks.length + 1) % 2 = 0 then 1 else 2) % 65536 =
        statusLength (nacks.length + 1) % 65536 := by
    unfold statusLength
    split_ifs <;> omega
  unfold listing pushNack lengthen
  simp only [List.length_append, List.length_singleton, hlen]

theorem listing_statusPdu {nacks : List ℕ} (h : ∀ n ∈ nacks, n < 1024) {ackSn : ℕ}
    (ha : ackSn < 1024) : ((listing nacks).setAckSn ackSn).StatusPdu where
  dataControlBit := rfl
  headerLength := rfl
  controlPduType := rfl
  ackSn_lt := ha
  nackSnList_lt := h

section Missing
variable {s : LteRlcAm} {k n : ℕ}

theorem missing_succ (s : LteRlcAm) (k : ℕ) :
    s.missing (k + 1) = s.missing k ++
      if s.complete ((s.vrR.value + k) % 1024) then [] else [(s.vrR.value + k) % 1024] := by
  unfold missing
  rw [List.range_succ, List.map_append, List.filter_append, List.map_singleton]
  by_cases hc : s.complete ((s.vrR.value + k) % 1024)
  · simp [hc]
  · simp [hc]

theorem mem_missing (hk : k ≤ 1024) :
    n ∈ s.missing k ↔ n < 1024 ∧ forward 1024 n s.vrR.value < k ∧ ¬ s.complete n := by
  have hR := s.vrR.value_lt
  unfold missing
  rw [List.mem_filter, decide_eq_true_iff, List.mem_map]
  constructor
  · intro h
    obtain ⟨⟨d, hd, rfl⟩, hc⟩ := h
    have hd' : d < k := List.mem_range.mp hd
    have hfor := forward_residue s.vrR.value (show d < 1024 by omega)
    rw [Nat.mod_eq_of_lt hR] at hfor
    exact ⟨Nat.mod_lt _ (by decide), by omega, hc⟩
  · intro h
    obtain ⟨hn, hfor, hc⟩ := h
    have hres := residue_forward s.vrR.value hn
    rw [Nat.mod_eq_of_lt hR] at hres
    exact ⟨⟨_, List.mem_range.mpr hfor, hres⟩, hc⟩

end Missing

/-! ### The loop that collects -/

/-- What the loop has collected when it stops at distance `stop`: one more number fitted in
whenever it went on, and it went on to VR(MS) unless none more did. -/
structure Collected (s : LteRlcAm) (bytes start : ℕ) (r : SequenceNumber10 × LteRlcAmHeader) :
    Prop where
  base : r.1.modulusBase = s.vrR.value
  start_le : start ≤ r.1.dist
  le_max : r.1.dist ≤ s.vrMs.dist
  header : r.2 = listing (s.missing r.1.dist)
  fitted : ∀ k, start ≤ k → k < r.1.dist → (listing (s.missing k)).oneMoreNackWouldFitIn bytes
  stopped : r.1.dist = s.vrMs.dist ∨ ¬ (listing (s.missing r.1.dist)).oneMoreNackWouldFitIn bytes

theorem RxOrder.collectNacks {s : LteRlcAm} (h : RxOrder s) (bytes fuel : ℕ)
    {sn : SequenceNumber10} (hb : sn.modulusBase = s.vrR.value) (hle : sn.dist ≤ s.vrMs.dist)
    (hfuel : s.vrMs.dist < sn.dist + fuel) :
    Collected s bytes sn.dist (s.collectNacks bytes fuel sn (listing (s.missing sn.dist))) := by
  induction fuel generalizing sn with
  | zero => omega
  | succ fuel ih =>
    have hlt := SequenceNumber10.lt_iff (hb.trans h.vrMs_base.symm)
    unfold LteRlcAm.collectNacks
    by_cases hgo : sn.lt s.vrMs
    · have hless := hlt.mp hgo
      rw [if_neg (not_not.mpr hgo)]
      by_cases hfit : (listing (s.missing sn.dist)).oneMoreNackWouldFitIn bytes
      · have hH := h.vrH_le
        have hMs := h.vrMs_le
        unfold amWindowSize at hH
        have hsucc : sn.succ.dist = sn.dist + 1 := SequenceNumber10.dist_succ (by omega)
        have hvalue : (s.vrR.value + sn.dist) % 1024 = sn.value := by rw [← hb, ← sn.value_eq]
        have hnext : (if s.received sn then listing (s.missing sn.dist)
            else (listing (s.missing sn.dist)).pushNack sn.value) =
              listing (s.missing sn.succ.dist) := by
          rw [hsucc, missing_succ, hvalue, received_eq, listing_pushNack]
          split_ifs with hc
          · rw [List.append_nil]
          · rfl
        rw [if_neg (not_not.mpr hfit), hnext]
        have hrest := @ih sn.succ hb (by omega) (by omega)
        refine ⟨hrest.base, ?_, hrest.le_max, hrest.header, ?_, hrest.stopped⟩
        · have hstart := hrest.start_le
          omega
        · intro k hk hk'
          by_cases hfirst : k = sn.dist
          · rw [hfirst]
            exact hfit
          · exact hrest.fitted k (by omega) hk'
      · rw [if_pos hfit]
        exact ⟨hb, le_refl _, hle, rfl, fun k hk hk' => absurd hk (Nat.not_le_of_lt hk'),
          Or.inr hfit⟩
    · rw [if_pos hgo]
      have hge : ¬ sn.dist < s.vrMs.dist := fun hless => hgo (hlt.mpr hless)
      refine ⟨hb, le_refl _, hle, rfl, fun k hk hk' => absurd hk (Nat.not_le_of_lt hk'), Or.inl ?_⟩
      show sn.dist = s.vrMs.dist
      omega

/-! ### The acknowledged number -/

theorem RxConsistent.findAckSn {s : LteRlcAm} (h : RxConsistent s) (fuel : ℕ)
    {sn : SequenceNumber10} (hb : sn.modulusBase = s.vrR.value) (hle : sn.dist ≤ s.vrMs.dist)
    (hfuel : s.vrMs.dist < sn.dist + fuel) :
    (s.findAckSn fuel sn).modulusBase = s.vrR.value ∧ sn.dist ≤ (s.findAckSn fuel sn).dist ∧
      (s.findAckSn fuel sn).dist ≤ s.vrMs.dist ∧ ¬ s.complete (s.findAckSn fuel sn).value ∧
      ∀ n, n < 1024 → sn.dist ≤ forward 1024 n s.vrR.value →
        forward 1024 n s.vrR.value < (s.findAckSn fuel sn).dist → s.complete n := by
  induction fuel generalizing sn with
  | zero => omega
  | succ fuel ih =>
    have hlt := SequenceNumber10.lt_iff (hb.trans h.vrMs_base.symm)
    unfold LteRlcAm.findAckSn
    by_cases hgo : sn.lt s.vrMs ∧ s.received sn
    · have hless := hlt.mp hgo.1
      have hH := h.vrH_le
      have hMs := h.vrMs_le
      unfold amWindowSize at hH
      have hsucc : sn.succ.dist = sn.dist + 1 := SequenceNumber10.dist_succ (by omega)
      rw [if_pos hgo]
      obtain ⟨hbase, hstart, hmax, hmissing, hall⟩ := @ih sn.succ hb (by omega) (by omega)
      refine ⟨hbase, by omega, hmax, hmissing, ?_⟩
      intro n hn hfrom hto
      by_cases hfirst : forward 1024 n s.vrR.value = sn.dist
      · have hvalue : n = sn.value := by
          have hres := residue_forward s.vrR.value hn
          rw [Nat.mod_eq_of_lt s.vrR.value_lt, hfirst, ← hb, ← sn.value_eq] at hres
          exact hres.symm
        rw [hvalue]
        exact hgo.2
      · exact hall n hn (by omega) hto
    · rw [if_neg hgo]
      refine ⟨hb, le_refl _, hle, ?_, fun n _ hfrom hto => absurd hfrom (by omega)⟩
      intro hc
      have hge : ¬ sn.dist < s.vrMs.dist := fun hless => hgo ⟨hlt.mpr hless, hc⟩
      have heq : sn.value = s.vrMs.value :=
        (SequenceNumber10.dist_eq_iff (hb.trans h.vrMs_base.symm)).mp (by omega)
      rw [heq] at hc
      exact h.maximum hc

/-! ### The report -/

/-- The report is exact: everything below the acknowledged number is received or listed, nothing
listed is received, and the acknowledged number is the first one that is neither; it is VR(MS)
when no missing number was left out. -/
structure Reports (s : LteRlcAm) (header : LteRlcAmHeader) : Prop where
  acknowledged : ∀ n, s.RxBefore n header.ackSn → n ∉ header.nackSnList → s.complete n
  nacked : ∀ n ∈ header.nackSnList, s.RxBefore n header.ackSn ∧ ¬ s.complete n
  whole : (∀ n, s.RxBefore n s.vrMs.value → ¬ s.complete n → n ∈ header.nackSnList) →
    header.ackSn = s.vrMs.value
  first : ¬ s.complete header.ackSn ∧ header.ackSn ∉ header.nackSnList ∧
    ∀ n, s.RxBefore n header.ackSn → s.complete n ∨ n ∈ header.nackSnList

theorem RxConsistent.collected {s : LteRlcAm} (h : RxConsistent s) (bytes : ℕ) :
    Collected s bytes 0 (s.collectNacks bytes 1024 s.vrR (listing [])) := by
  have hH := h.vrH_le
  have hMs := h.vrMs_le
  unfold amWindowSize at hH
  have hrun := h.collectNacks bytes 1024 h.vrR_base (by rw [h.vrR_dist]; omega) (by omega)
  rw [h.vrR_dist] at hrun
  exact hrun

theorem statusHeader_eq (s : LteRlcAm) (bytes : ℕ) :
    s.statusHeader bytes =
      (s.collectNacks bytes 1024 s.vrR (listing [])).2.setAckSn
        (s.findAckSn 1024 (s.collectNacks bytes 1024 s.vrR (listing [])).1).value := by
  have hstart : ({} : LteRlcAmHeader).setControlPdu statusPdu = listing [] := rfl
  unfold LteRlcAm.statusHeader
  dsimp only
  rw [hstart]

theorem RxConsistent.statusHeader {s : LteRlcAm} (h : RxConsistent s) (bytes : ℕ) :
    (s.statusHeader bytes).StatusPdu ∧ Reports s (s.statusHeader bytes) := by
  obtain ⟨hb, -, hmax, hheader, -, -⟩ := h.collected bytes
  rw [statusHeader_eq, hheader]
  generalize (s.collectNacks bytes 1024 s.vrR (listing [])).1 = sn at hb hmax ⊢
  have hH := h.vrH_le
  have hMs := h.vrMs_le
  unfold amWindowSize at hH
  obtain ⟨hackBase, hackLe, hackMax, hackMissing, hackAll⟩ :=
    h.findAckSn 1024 hb hmax (by omega)
  generalize s.findAckSn 1024 sn = ack at hackBase hackLe hackMax hackMissing hackAll ⊢
  have hmem := fun n => mem_missing (s := s) (k := sn.dist) (n := n) (by omega)
  have hackDist : forward 1024 ack.value s.vrR.value = ack.dist := by
    rw [← hackBase]
    rfl
  have hmaxDist : forward 1024 s.vrMs.value s.vrR.value = s.vrMs.dist := by
    rw [← h.vrMs_base]
    rfl
  have hbefore : ∀ n, s.RxBefore n ack.value → s.complete n ∨ n ∈ s.missing sn.dist := by
    intro n hn
    obtain ⟨hlt, hfor⟩ := hn
    rw [hackDist] at hfor
    by_cases hc : s.complete n
    · exact Or.inl hc
    · refine Or.inr ((hmem n).mpr ⟨hlt, ?_, hc⟩)
      by_contra hfar
      exact hc (hackAll n hlt (by omega) hfor)
  have hout : ack.value ∉ s.missing sn.dist := by
    intro hin
    have hfor := ((hmem _).mp hin).2.1
    omega
  refine ⟨listing_statusPdu (fun n hn => ((hmem n).mp hn).1) ack.value_lt, ?_⟩
  refine ⟨?_, ?_, ?_, hackMissing, hout, hbefore⟩
  · intro n hn hnot
    exact (hbefore n hn).resolve_right hnot
  · intro n hn
    obtain ⟨hlt, hfor, hc⟩ := (hmem n).mp hn
    refine ⟨⟨hlt, ?_⟩, hc⟩
    show forward 1024 n s.vrR.value < forward 1024 ack.value s.vrR.value
    omega
  · intro hwhole
    show ack.value = s.vrMs.value
    by_contra hne
    have hless : ack.dist ≠ s.vrMs.dist := fun heq =>
      hne ((SequenceNumber10.dist_eq_iff (hackBase.trans h.vrMs_base.symm)).mp heq)
    apply hout
    apply hwhole ack.value ⟨ack.value_lt, _⟩ hackMissing
    omega

/-- Number 1 is received with a poll while 0 is missing, and the reordering timer expires. -/
def reportedGap : List Event :=
  [.receivePdu [0xa0, 0x01, 0x80, 0x00, 0x2a], .expireReorderingTimer]

end LteRlcAm
end NetGymSim.Lte

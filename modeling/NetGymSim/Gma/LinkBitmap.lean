import NetGymSim.Gma.TxControl
import NetGymSim.Lib.Circular
import Mathlib.Data.List.Induction

/-!
# The link bitmap

Probes and TSUs carry the status of the Wi-Fi link. `RecvCtrlMsg` applies it when the CSN
is ahead of `m_maxLinkMapUpdateSn`, but stores the CSN of every such message there, so
that the number kept is that of the last message and not the highest one. The status held
is then that of the highest CSN exactly when the highest CSN comes last.
-/

namespace NetGymSim.Gma
open NetGymSim.Lib

structure LinkMap where
  linkState : LinkState
  maxLinkMapUpdateSn : ℕ := 0

namespace LinkMap

def ahead (s : LinkMap) (h : MxControlHeader) : Prop :=
  0 < csnDiff h.sequenceNumber s.maxLinkMapUpdateSn

instance ahead.decidable (s : LinkMap) (h : MxControlHeader) : Decidable (s.ahead h) :=
  inferInstanceAs (Decidable (_ < _))

def applyStatus (s : LinkState) (h : MxControlHeader) : LinkState × Bool :=
  if h.linkStatus = 0 then s.linkBitMapDown wifiCid else s.linkBitMapUp wifiCid

/-- The first part of `RecvCtrlMsg`. The assignment stands behind the comparison. -/
def recv (s : LinkMap) (h : MxControlHeader) : LinkMap :=
  if h.type = .probe ∨ h.type = .tsu then
    { linkState := if s.ahead h then (applyStatus s.linkState h).1 else s.linkState
      maxLinkMapUpdateSn := h.sequenceNumber }
  else s

def recvAll (s : LinkMap) (hs : List MxControlHeader) : LinkMap := hs.foldl recv s

def HoldsStatus (s : LinkMap) (h : MxControlHeader) : Prop :=
  wifiCid ∈ s.linkState.downMap .bitmapFailed ↔ h.linkStatus = 0

instance HoldsStatus.decidable (s : LinkMap) (h : MxControlHeader) :
    Decidable (s.HoldsStatus h) :=
  inferInstanceAs (Decidable (_ ↔ _))

/-- Probes and TSUs with distinct CSNs within less than half of the space behind `base`. -/
structure Spread (base : ℕ) (hs : List MxControlHeader) : Prop where
  type : ∀ h ∈ hs, h.type = .probe ∨ h.type = .tsu
  csn : ∀ h ∈ hs, h.sequenceNumber < 65536
  half : ∀ h ∈ hs, forward 65536 h.sequenceNumber (base % 65536) < 32768
  distinct : (hs.map MxControlHeader.sequenceNumber).Nodup

def Highest (base : ℕ) (hs : List MxControlHeader) (h : MxControlHeader) : Prop :=
  h ∈ hs ∧ ∀ h' ∈ hs, forward 65536 h'.sequenceNumber (base % 65536) ≤
    forward 65536 h.sequenceNumber (base % 65536)

instance Highest.decidable (base : ℕ) (hs : List MxControlHeader) (h : MxControlHeader) :
    Decidable (Highest base hs h) :=
  inferInstanceAs (Decidable (_ ∧ _))

section Gate
variable {s : LinkMap} {h h' : MxControlHeader} {hs : List MxControlHeader} {base : ℕ}

theorem applyStatus_holds (s : LinkState) (h : MxControlHeader) :
    wifiCid ∈ (applyStatus s h).1.downMap .bitmapFailed ↔ h.linkStatus = 0 := by
  by_cases hs : h.linkStatus = 0
  · simp [applyStatus, hs, LinkState.linkBitMapDown, LinkState.markDown_downMap]
  · simp [applyStatus, hs, LinkState.linkBitMapUp, LinkState.markUp_downMap]

theorem recv_number (ht : h.type = .probe ∨ h.type = .tsu) :
    (s.recv h).maxLinkMapUpdateSn = h.sequenceNumber := by
  simp only [recv, if_pos ht]

theorem recv_holds (ht : h.type = .probe ∨ h.type = .tsu) (ha : s.ahead h) :
    (s.recv h).HoldsStatus h := by
  simp only [recv, if_pos ht, if_pos ha, HoldsStatus, applyStatus_holds]

theorem recv_behind (ht : h.type = .probe ∨ h.type = .tsu) (ha : ¬ s.ahead h) :
    (s.recv h).linkState = s.linkState := by
  simp only [recv, if_pos ht, if_neg ha]

theorem recv_cidList (s : LinkMap) (h : MxControlHeader) :
    (s.recv h).linkState.cidList = s.linkState.cidList := by
  simp only [recv, applyStatus, LinkState.linkBitMapDown, LinkState.linkBitMapUp]
  split_ifs
  · exact LinkState.markDown_cidList _ _ _
  · exact LinkState.markUp_cidList _ _ _
  · rfl
  · rfl

theorem recvAll_concat : s.recvAll (hs ++ [h]) = (s.recvAll hs).recv h := by
  simp [recvAll]

theorem csnDiff_pos_of_forward (hcsn : h.sequenceNumber < 65536)
    (hcsn' : h'.sequenceNumber < 65536)
    (hhalf : forward 65536 h.sequenceNumber (base % 65536) < 32768)
    (hlt : forward 65536 h'.sequenceNumber (base % 65536) <
      forward 65536 h.sequenceNumber (base % 65536)) :
    0 < csnDiff h.sequenceNumber h'.sequenceNumber := by
  have e := residue_forward base hcsn
  have e' := residue_forward base hcsn'
  generalize forward 65536 h.sequenceNumber (base % 65536) = x at *
  generalize forward 65536 h'.sequenceNumber (base % 65536) = x' at *
  have hd : csnDiff (h.sequenceNumber : ℤ) h'.sequenceNumber = (x : ℤ) - x' := by
    rw [← e, ← e']
    push_cast
    rw [csnDiff_residues (by omega) (by omega)]
    ring
  omega

theorem forward_injective (hcsn : h.sequenceNumber < 65536) (hcsn' : h'.sequenceNumber < 65536)
    (heq : forward 65536 h.sequenceNumber (base % 65536) =
      forward 65536 h'.sequenceNumber (base % 65536)) :
    h.sequenceNumber = h'.sequenceNumber := by
  rw [← residue_forward base hcsn, ← residue_forward base hcsn', heq]

theorem Spread.ahead_last (hsp : Spread base (hs ++ [h', h])) (hh : Highest base (hs ++ [h', h]) h)
    (s : LinkMap) : (s.recvAll (hs ++ [h'])).ahead h := by
  have hm : h ∈ hs ++ [h', h] := by simp
  have hm' : h' ∈ hs ++ [h', h] := by simp
  have hne : h.sequenceNumber ≠ h'.sequenceNumber := by
    have hd := hsp.distinct
    simp only [List.map_append, List.map_cons, List.map_nil, List.nodup_append,
      List.nodup_cons, List.mem_singleton] at hd
    exact fun heq => hd.2.1.1 heq.symm
  have hlt : forward 65536 h'.sequenceNumber (base % 65536) <
      forward 65536 h.sequenceNumber (base % 65536) :=
    lt_of_le_of_ne (hh.2 h' hm') fun heq =>
      hne (forward_injective (hsp.csn h hm) (hsp.csn h' hm') heq.symm)
  have hpos := csnDiff_pos_of_forward (hsp.csn h hm) (hsp.csn h' hm') (hsp.half h hm) hlt
  rw [recvAll_concat, ahead, recv_number (hsp.type h' hm')]
  exact hpos

end Gate

/-- The status and the number of the highest message, if any, are held. -/
def FollowsHighest (base : ℕ) (hs : List MxControlHeader) (s : LinkMap) : Prop :=
  ∀ h, Highest base hs h → s.HoldsStatus h ∧ s.maxLinkMapUpdateSn = h.sequenceNumber

/-- The highest message is received last; a message that is alone has to be ahead of the
number stored before, or to carry the status that is held anyway. -/
def HighestLast (base : ℕ) (hs : List MxControlHeader) (s : LinkMap) : Prop :=
  ∀ h, Highest base hs h → hs.getLast? = some h ∧ (hs = [h] → s.ahead h ∨ s.HoldsStatus h)

theorem link_bitmap_follows_highest (base : ℕ) (s : LinkMap) (hs : List MxControlHeader)
    (hsp : Spread base hs) :
    FollowsHighest base hs (s.recvAll hs) ↔ HighestLast base hs s := by
  constructor
  · intro hf h hh
    obtain ⟨hst, hmax⟩ := hf h hh
    rcases List.eq_nil_or_concat hs with rfl | ⟨pre, l, rfl⟩
    · exact absurd hh.1 (by simp)
    · rw [List.concat_eq_append] at *
      have hl : l ∈ pre ++ [l] := by simp
      rw [recvAll_concat, recv_number (hsp.type l hl)] at hmax
      obtain rfl := List.inj_on_of_nodup_map hsp.distinct hl hh.1 hmax
      refine ⟨by simp, fun hone => ?_⟩
      have hnil : pre = [] := by simpa using hone
      subst hnil
      by_cases ha : s.ahead l
      · exact .inl ha
      · have hkeep : (s.recv l).linkState = s.linkState := recv_behind (hsp.type l hl) ha
        have hst : (s.recv l).HoldsStatus l := hst
        rw [HoldsStatus, hkeep] at hst
        exact .inr hst
  · intro hc h hh
    obtain ⟨hlast, hone⟩ := hc h hh
    obtain ⟨pre, rfl⟩ := List.getLast?_eq_some_iff.mp hlast
    have ht := hsp.type h hh.1
    rw [recvAll_concat]
    refine ⟨?_, recv_number ht⟩
    rcases List.eq_nil_or_concat pre with rfl | ⟨pre', l, rfl⟩
    · rcases hone rfl with ha | hst
      · exact recv_holds ht ha
      · by_cases ha : s.ahead h
        · exact recv_holds ht ha
        · simpa only [recvAll, List.foldl_nil, HoldsStatus, recv_behind ht ha] using hst
    · rw [List.concat_eq_append] at *
      have hlist : pre' ++ [l] ++ [h] = pre' ++ [l, h] := by simp
      rw [hlist] at hsp hh
      exact recv_holds ht (hsp.ahead_last hh s)

def probeMsg (csn linkStatus : ℕ) : MxControlHeader :=
  { type := .probe, sequenceNumber := csn, linkStatus }

def tsuMsg (csn linkStatus : ℕ) : MxControlHeader :=
  { type := .tsu, sequenceNumber := csn, linkStatus }

theorem link_bitmap_follows_highest_in_order :
    Spread 65534 [probeMsg 65535 0, tsuMsg 1 0, probeMsg 2 1] ∧
      FollowsHighest 65534 [probeMsg 65535 0, tsuMsg 1 0, probeMsg 2 1]
        ((⟨{ cidList := [0, 2] }, 65530⟩ : LinkMap).recvAll
          [probeMsg 65535 0, tsuMsg 1 0, probeMsg 2 1]) := by
  have hsp : Spread 65534 [probeMsg 65535 0, tsuMsg 1 0, probeMsg 2 1] :=
    ⟨by decide, by decide, by decide, by decide⟩
  refine ⟨hsp, (link_bitmap_follows_highest _ _ _ hsp).mpr fun h hh => ?_⟩
  obtain ⟨hm, hmax⟩ := hh
  simp only [List.mem_cons, List.not_mem_nil, or_false] at hm
  rcases hm with rfl | rfl | rfl
  · exact absurd (hmax (probeMsg 2 1) (by decide)) (by decide)
  · exact absurd (hmax (probeMsg 2 1) (by decide)) (by decide)
  · exact ⟨rfl, fun hone => absurd hone (by decide)⟩

/-- CSN 5 says up, the late CSN 3 lowers the number stored and CSN 4 then says down. -/
theorem late_message_rolls_back :
    ∃ hs : List MxControlHeader, Spread 0 hs ∧
      ¬ FollowsHighest 0 hs ((⟨{ cidList := [0, 2] }, 0⟩ : LinkMap).recvAll hs) := by
  refine ⟨[probeMsg 5 1, probeMsg 3 1, tsuMsg 4 0],
    ⟨by decide, by decide, by decide, by decide⟩, fun hf => ?_⟩
  exact absurd (hf (probeMsg 5 1) (by decide)).2 (by decide)

end LinkMap
end NetGymSim.Gma

import NetGymSim.Gma.TxControl
import Mathlib.Data.List.GetD
import Mathlib.Data.List.Rotate
import Mathlib.Data.List.Perm.Basic
import Mathlib.Algebra.BigOperators.Group.List.Basic

/-!
# The burst schedule

The tables are permutations of the burst, so that the schedule holds every link as often as
its share says, and as many calls as the burst is long read the schedule once around, from
wherever the index stands.
-/

namespace NetGymSim.Gma
namespace GmaTxControl

theorem reverseBitsIndex_perm {l : ℕ} {table : List ℕ} (h : reverseBitsIndex l = some table) :
    table.Perm (List.range l) ∧ 0 < l ∧ l < 256 := by
  unfold reverseBitsIndex at h
  split at h
  · obtain rfl := Option.some.inj h
    exact ⟨by decide +kernel, by decide, by decide⟩
  · obtain rfl := Option.some.inj h
    exact ⟨by decide +kernel, by decide, by decide⟩
  · obtain rfl := Option.some.inj h
    exact ⟨by decide +kernel, by decide, by decide⟩
  · obtain rfl := Option.some.inj h
    exact ⟨by decide +kernel, by decide, by decide⟩
  · obtain rfl := Option.some.inj h
    exact ⟨by decide +kernel, by decide, by decide⟩
  · obtain rfl := Option.some.inj h
    exact ⟨by decide +kernel, by decide, by decide⟩
  · cases h

def share (cidList : List Cid) (kVector : List ℕ) (cid : Cid) : ℕ :=
  ((cidList.zip kVector).map fun p => if p.1 = cid then p.2 else 0).sum

section Shares

theorem share_getElem {cidList : List Cid} (hnd : cidList.Nodup) {kVector : List ℕ} {i : ℕ}
    (hi : i < cidList.length) (hk : i < kVector.length) :
    share cidList kVector cidList[i] = kVector[i] := by
  unfold share
  induction cidList generalizing kVector i with
  | nil => cases hi
  | cons c cidList ih =>
    cases kVector with
    | nil => cases hk
    | cons k kVector =>
      obtain ⟨hc, hnd⟩ := List.nodup_cons.mp hnd
      rw [List.zip_cons_cons, List.map_cons, List.sum_cons]
      cases i with
      | zero =>
        have hrest : ((cidList.zip kVector).map fun p => if p.1 = c then p.2 else 0).sum = 0 := by
          refine List.sum_eq_zero fun x hx => ?_
          obtain ⟨p, hp, rfl⟩ := List.mem_map.mp hx
          refine if_neg fun heq => hc ?_
          exact heq ▸ (List.of_mem_zip hp).1
        simpa using hrest
      | succ i =>
        have hi' : i < cidList.length := Nat.lt_of_succ_lt_succ hi
        have hne : c ≠ cidList[i] := fun heq => hc (heq ▸ List.getElem_mem hi')
        simp only [List.getElem_cons_succ, if_neg hne, zero_add]
        exact ih hnd hi' (Nat.lt_of_succ_lt_succ hk)

theorem inorder_eq (cidList : List Cid) (kVector : List ℕ) (start : ℕ)
    (h : ∀ p ∈ kVector.zipIdx start, p.1 ≠ 0 → p.2 < cidList.length) :
    ((kVector.zipIdx start).flatMap fun p => List.replicate p.1 (cidList.getD p.2 0)) =
      ((cidList.drop start).zip kVector).flatMap fun p => List.replicate p.2 p.1 := by
  induction kVector generalizing start with
  | nil => simp
  | cons k kVector ih =>
    rw [List.zipIdx_cons] at h ⊢
    rw [List.flatMap_cons, ih (start + 1) fun p hp => h p (List.mem_cons_of_mem _ hp)]
    by_cases hs : start < cidList.length
    · rw [List.drop_eq_getElem_cons hs, List.zip_cons_cons, List.flatMap_cons,
        List.getD_eq_getElem _ _ hs]
    · have hk : k = 0 := by
        by_contra hk
        exact hs (h (k, start) List.mem_cons_self hk)
      rw [List.drop_eq_nil_of_le (Nat.le_of_not_lt hs), hk,
        List.drop_eq_nil_of_le (Nat.le_succ_of_le (Nat.le_of_not_lt hs))]
      rfl

theorem count_inorder {cidList : List Cid} {kVector : List ℕ} {inorder : List Cid}
    (h : inorderCidVector cidList kVector = .ok inorder) (cid : Cid) :
    inorder.count cid = share cidList kVector cid := by
  unfold inorderCidVector at h
  split at h
  · rename_i hr
    obtain rfl := Except.ok.inj h
    rw [inorder_eq cidList kVector 0 hr, List.drop_zero, List.count_flatMap, share]
    congr 1
    refine List.map_congr_left fun p _ => ?_
    rw [Function.comp_apply, List.count_replicate]
    by_cases hp : p.1 = cid
    · rw [if_pos hp, if_pos (beq_iff_eq.mpr hp)]
    · rw [if_neg hp, if_neg (mt beq_iff_eq.mp hp)]
  · cases h

end Shares

section Schedule
variable {debug : Bool} {l : ℕ} {inorder : List Cid} {t t' : GmaTxControl}

theorem reorder_perm {table : List ℕ} (hp : table.Perm (List.range inorder.length)) :
    ∃ cidVector, reorder table inorder = .ok cidVector ∧ cidVector.Perm inorder := by
  have hlen : table.length = inorder.length := by
    rw [hp.length_eq, List.length_range]
  have htake : table.take inorder.length = table := by
    rw [← hlen, List.take_length]
  unfold reorder
  rw [htake, if_pos fun i hi => List.mem_range.mp (hp.mem_iff.mp hi)]
  refine ⟨_, rfl, (hp.map _).trans ?_⟩
  have hid : (List.range inorder.length).map (fun i => inorder.getD i 0) = inorder := by
    refine List.ext_getElem (by simp) fun i h1 h2 => ?_
    rw [List.getElem_map, List.getElem_range, List.getD_eq_getElem _ _ h2]
  rw [hid]

theorem splitMode_spec (h : t.splitMode debug l inorder = .ok t') (hl : l ≠ 0) :
    t'.cidVector.Perm inorder ∧ inorder.length = l ∧ t'.paramL = l ∧ t'.splittingIndex = 0 ∧
      0 < l ∧ l < 256 := by
  unfold splitMode at h
  split at h
  · cases h
  · rename_i hlen
    rw [not_not] at hlen
    cases ht : reverseBitsIndex l with
    | none =>
      have hne : inorder ≠ [] := fun hnil => hl (by rw [← hlen, hnil, List.length_nil])
      rw [ht] at h
      simp only [if_pos hne] at h
      cases h
    | some table =>
      obtain ⟨hp, hpos, hlt⟩ := reverseBitsIndex_perm ht
      rw [← hlen] at hp
      obtain ⟨cidVector, hr, hperm⟩ := reorder_perm hp
      rw [ht] at h
      simp only [hr] at h
      split at h
      · cases h
      · obtain rfl := Except.ok.inj h
        exact ⟨hperm, hlen, rfl, rfl, hpos, hlt⟩

end Schedule

section Transmit
variable {t : GmaTxControl}

structure Scheduled (t : GmaTxControl) : Prop where
  length : t.cidVector.length = t.paramL
  index : t.splittingIndex < t.paramL
  small : t.paramL < 256

theorem Scheduled.getNext (h : Scheduled t) :
    t.getNextCidFromTsu = .ok (t.cidVector.getD (t.splittingIndex % t.paramL) 0,
      { t with splittingIndex := (t.splittingIndex + 1) % t.paramL }) := by
  have hi : t.splittingIndex < t.cidVector.length := h.length ▸ h.index
  have hne : t.cidVector ≠ [] := List.ne_nil_of_length_pos (Nat.zero_lt_of_lt hi)
  have hindex := h.index
  have hsmall := h.small
  have hwrap : (if (t.splittingIndex + 1) % 256 ≥ t.paramL then 0
      else (t.splittingIndex + 1) % 256) = (t.splittingIndex + 1) % t.paramL := by
    rw [Nat.mod_eq_of_lt (show t.splittingIndex + 1 < 256 by omega)]
    split
    · rename_i hge
      have heq : t.splittingIndex + 1 = t.paramL := by omega
      rw [heq, Nat.mod_self]
    · rename_i hlt
      rw [Nat.mod_eq_of_lt (by omega)]
  unfold getNextCidFromTsu
  rw [if_neg hne, List.getElem?_eq_getElem hi]
  simp only [hwrap]
  rw [Nat.mod_eq_of_lt h.index, List.getD_eq_getElem _ _ hi]

theorem Scheduled.next (h : Scheduled t) :
    Scheduled { t with splittingIndex := (t.splittingIndex + 1) % t.paramL } :=
  ⟨h.length, Nat.mod_lt _ (Nat.zero_lt_of_lt h.index), h.small⟩

theorem Scheduled.transmit (h : Scheduled t) (n : ℕ) :
    t.transmit n = .ok ((List.range n).map fun j =>
        t.cidVector.getD ((t.splittingIndex + j) % t.paramL) 0,
      { t with splittingIndex := (t.splittingIndex + n) % t.paramL }) := by
  induction n generalizing t with
  | zero =>
    rw [Nat.add_zero, Nat.mod_eq_of_lt h.index]
    rfl
  | succ n ih =>
    unfold GmaTxControl.transmit
    rw [h.getNext]
    simp only [ih h.next, Nat.mod_add_mod]
    rw [List.range_succ_eq_map, List.map_cons, List.map_map]
    have hmap : ∀ j, t.splittingIndex + 1 + j = t.splittingIndex + (j + 1) := by omega
    simp only [Function.comp_def, hmap, Nat.succ_eq_add_one, Nat.add_zero]

theorem Scheduled.transmit_scheduled (h : Scheduled t) (n : ℕ) :
    ∃ t₁, t.transmit n = .ok ((List.range n).map fun j =>
        t.cidVector.getD ((t.splittingIndex + j) % t.paramL) 0, t₁) ∧
      Scheduled t₁ ∧ t₁.paramL = t.paramL ∧ t₁.cidVector = t.cidVector :=
  ⟨_, h.transmit n, ⟨h.length, Nat.mod_lt _ (Nat.zero_lt_of_lt h.index), h.small⟩, rfl, rfl⟩

theorem Scheduled.transmit_round (h : Scheduled t) :
    ∃ cids, t.transmit t.paramL = .ok (cids, t) ∧ cids.Perm t.cidVector := by
  refine ⟨t.cidVector.rotate t.splittingIndex, ?_, List.rotate_perm _ _⟩
  rw [h.transmit, Nat.add_mod_right, Nat.mod_eq_of_lt h.index]
  refine congrArg Except.ok (Prod.ext ?_ rfl)
  refine List.ext_getElem (by simp [h.length]) fun j h1 h2 => ?_
  have hj : (t.splittingIndex + j) % t.paramL < t.cidVector.length := by
    rw [h.length]
    exact Nat.mod_lt _ (Nat.zero_lt_of_lt h.index)
  rw [List.getElem_rotate, List.getElem_map, List.getElem_range, List.getD_eq_getElem _ _ hj]
  simp only [h.length, Nat.add_comm]

end Transmit

section Accepted
variable {debug : Bool} {cidList : List Cid} {mxHeader : MxControlHeader} {t t' : GmaTxControl}

theorem rcvCtrlMsg_ok (h : t.rcvCtrlMsg debug cidList mxHeader = .ok t') :
    ∃ inorder, (∀ cid, inorder.count cid = share cidList mxHeader.kVector cid) ∧
      if mxHeader.l ≠ 1 then t.splitMode debug mxHeader.l inorder = .ok t'
      else t.steerMode inorder = .ok t' := by
  unfold rcvCtrlMsg at h
  split at h
  · cases h
  split at h
  · cases h
  cases hin : inorderCidVector cidList mxHeader.kVector with
  | error e =>
    rw [hin] at h
    cases h
  | ok inorder =>
    rw [hin] at h
    refine ⟨inorder, count_inorder hin, ?_⟩
    split_ifs at h ⊢
    · exact h
    · exact h

theorem rcvCtrlMsg_rounds (h : t.rcvCtrlMsg debug cidList mxHeader = .ok t')
    (hsplit : mxHeader.l ≠ 1) (hpos : mxHeader.l ≠ 0) (before : ℕ) :
    ∃ sent t₁ cids t₂, t'.transmit before = .ok (sent, t₁) ∧
      t₁.transmit mxHeader.l = .ok (cids, t₂) ∧
      ∀ cid, cids.count cid = share cidList mxHeader.kVector cid := by
  obtain ⟨inorder, hcount, hmode⟩ := rcvCtrlMsg_ok h
  rw [if_pos hsplit] at hmode
  obtain ⟨hperm, hlen, hparam, hindex, hlt₀, hlt⟩ := splitMode_spec hmode hpos
  have hs : Scheduled t' := by
    refine ⟨?_, ?_, ?_⟩
    · rw [hperm.length_eq, hlen, hparam]
    · rw [hindex, hparam]
      exact hlt₀
    · rw [hparam]
      exact hlt
  obtain ⟨t₁, hbefore, hs₁, hparam₁, hvec₁⟩ := hs.transmit_scheduled before
  obtain ⟨cids, hsent, hcids⟩ := hs₁.transmit_round
  rw [hvec₁] at hcids
  rw [hparam₁, hparam] at hsent
  refine ⟨_, t₁, cids, t₁, hbefore, hsent, fun cid => ?_⟩
  rw [(hcids.trans hperm).count_eq, hcount]

end Accepted

/-- After a TSU with a burst of `l` packets was accepted, any `l` calls in a row return every
link as often as its share says. -/
theorem burst_schedule_exact {debug : Bool} {cidList : List Cid} {mxHeader : MxControlHeader}
    {t t' : GmaTxControl} (h : t.rcvCtrlMsg debug cidList mxHeader = .ok t')
    (hl : mxHeader.l ∈ [4, 8, 16, 32, 64, 128]) (before : ℕ) :
    ∃ sent t₁ cids t₂, t'.transmit before = .ok (sent, t₁) ∧
      t₁.transmit mxHeader.l = .ok (cids, t₂) ∧
      (∀ cid, cids.count cid = share cidList mxHeader.kVector cid) ∧
      (cidList.Nodup → ∀ i (hi : i < cidList.length) (hk : i < mxHeader.kVector.length),
        cids.count cidList[i] = mxHeader.kVector[i]) := by
  have hne : mxHeader.l ≠ 1 ∧ mxHeader.l ≠ 0 := by
    constructor <;> rintro heq <;> simp [heq] at hl
  obtain ⟨sent, t₁, cids, t₂, hbefore, hsent, hcount⟩ := rcvCtrlMsg_rounds h hne.1 hne.2 before
  refine ⟨sent, t₁, cids, t₂, hbefore, hsent, hcount, ?_⟩
  intro hnd i hi hk
  rw [hcount, share_getElem hnd hi hk]

theorem burst_schedule_exact_four :
    (rcvCtrlMsg true [0, 11] { type := .tsu, kVector := [3, 1], l := 4 } {} =
      .ok { cidVector := [0, 0, 0, 11], paramL := 4 }) ∧
    ∃ sent t₁ cids t₂, transmit 6 { cidVector := [0, 0, 0, 11], paramL := 4 } = .ok (sent, t₁) ∧
      t₁.transmit 4 = .ok (cids, t₂) ∧ cids.count 0 = 3 ∧ cids.count 11 = 1 := by
  have h : rcvCtrlMsg true [0, 11] { type := .tsu, kVector := [3, 1], l := 4 } {} =
      .ok { cidVector := [0, 0, 0, 11], paramL := 4 } := by decide
  refine ⟨h, ?_⟩
  obtain ⟨sent, t₁, cids, t₂, hsent, hcids, hcount, _⟩ := burst_schedule_exact h (by decide) 6
  refine ⟨sent, t₁, cids, t₂, hsent, hcids, ?_, ?_⟩
  · rw [hcount]
    decide
  · rw [hcount]
    decide

end GmaTxControl
end NetGymSim.Gma

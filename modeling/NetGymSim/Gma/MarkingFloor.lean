import NetGymSim.Gma.QosMarking
import Mathlib.Algebra.Order.BigOperators.Group.List
import Mathlib.Tactic.Linarith
import Mathlib.Tactic.NormNum

/-!
# The floor of the demotions

The second loop takes the QoS clients away from the end of the list. What is left at each turn is
the rate of the first clients, so that the loop stops at the first position where that rate is no
longer above both bounds, at the latest when nothing is left. The last client it takes away may
carry the rate far below the floor.
-/

namespace NetGymSim.Gma
open NetGymSim.Lib

section Rates
variable {marking rate : List ℚ} {n : ℕ}

def qosRateBefore (marking rate : List ℚ) (n : ℕ) : ℚ := qosRate (marking.take n) (rate.take n)

def demotedFrom (marking : List ℚ) (n : ℕ) : List ℚ :=
  marking.take n ++ (marking.drop n).map fun m => if m > 0 then 0 else m

theorem qosRate_append {marking' rate' : List ℚ} (h : marking.length = rate.length) :
    qosRate (marking ++ marking') (rate ++ rate') =
      qosRate marking rate + qosRate marking' rate' := by
  rw [qosRate, List.zip_append h, List.map_append, List.sum_append, qosRate, qosRate]

theorem qosRate_nonneg (h : ∀ r ∈ rate, 0 ≤ r) : 0 ≤ qosRate marking rate := by
  refine List.sum_nonneg fun x hx => ?_
  obtain ⟨p, hp, rfl⟩ := List.mem_map.mp hx
  split_ifs
  · exact h p.2 (List.of_mem_zip hp).2
  · exact le_rfl

theorem nqosRate_nonneg (h : ∀ r ∈ rate, 0 ≤ r) : 0 ≤ nqosRate marking rate := by
  refine List.sum_nonneg fun x hx => ?_
  obtain ⟨p, hp, rfl⟩ := List.mem_map.mp hx
  split_ifs
  · exact le_rfl
  · exact h p.2 (List.of_mem_zip hp).2

theorem qosRateBefore_zero : qosRateBefore marking rate 0 = 0 := rfl

theorem qosRateBefore_length (h : rate.length = marking.length) :
    qosRateBefore marking rate rate.length = qosRate marking rate := by
  rw [qosRateBefore, List.take_length, h, List.take_length]

theorem qosRateBefore_succ {m r : ℚ} (hm : marking[n]? = some m) (hr : rate[n]? = some r) :
    qosRateBefore marking rate (n + 1) =
      qosRateBefore marking rate n + if m > 0 then r else 0 := by
  have hlm := (List.getElem?_eq_some_iff.mp hm).1
  have hlr := (List.getElem?_eq_some_iff.mp hr).1
  rw [qosRateBefore, List.take_add_one, List.take_add_one, hm, hr, Option.toList_some,
    Option.toList_some, qosRate_append, qosRateBefore]
  · simp [qosRate]
  · rw [List.length_take, List.length_take, Nat.min_eq_left hlm.le, Nat.min_eq_left hlr.le]

theorem qosRateBefore_mono (h : ∀ r ∈ rate, 0 ≤ r) (hlen : rate.length = marking.length)
    {i j : ℕ} (hij : i ≤ j) (hj : j ≤ rate.length) :
    qosRateBefore marking rate i ≤ qosRateBefore marking rate j := by
  induction j, hij using Nat.le_induction with
  | base => exact le_rfl
  | succ j hij ih =>
    have hlt : j < rate.length := hj
    have hm : marking[j]? = some marking[j] := List.getElem?_eq_getElem (hlen ▸ hlt)
    have hr : rate[j]? = some rate[j] := List.getElem?_eq_getElem hlt
    have hpos : 0 ≤ rate[j] := h _ (List.getElem_mem hlt)
    rw [qosRateBefore_succ hm hr]
    have hstep := ih hlt.le
    split_ifs <;> linarith

theorem demotedFrom_length (h : n = marking.length) : demotedFrom marking n = marking := by
  rw [demotedFrom, h, List.take_length, List.drop_length]
  exact List.append_nil _

theorem demotedFrom_split {m : ℚ} (hm : marking[n]? = some m) :
    ∃ rest, demotedFrom marking (n + 1) = marking.take n ++ m :: rest ∧
      demotedFrom marking n = marking.take n ++ (if m > 0 then 0 else m) :: rest := by
  obtain ⟨hlt, rfl⟩ := List.getElem?_eq_some_iff.mp hm
  refine ⟨(marking.drop (n + 1)).map fun m => if m > 0 then 0 else m, ?_, ?_⟩
  · rw [demotedFrom, List.take_add_one, hm, Option.toList_some, List.append_assoc,
      List.singleton_append]
  · rw [demotedFrom, List.drop_eq_getElem_cons hlt, List.map_cons]

theorem length_take_of_getElem? {m : ℚ} (hm : marking[n]? = some m) :
    (marking.take n).length = n :=
  List.length_take_of_le (List.getElem?_eq_some_iff.mp hm).1.le

theorem demotedFrom_set {m : ℚ} (hm : marking[n]? = some m) :
    demotedFrom marking n =
      if m > 0 then (demotedFrom marking (n + 1)).set n 0 else demotedFrom marking (n + 1) := by
  obtain ⟨rest, hsucc, hn⟩ := demotedFrom_split hm
  have hlen := length_take_of_getElem? hm
  rw [hsucc, hn]
  split_ifs
  · rw [List.set_append_right _ _ hlen.le, hlen, Nat.sub_self, List.set_cons_zero]
  · rfl

theorem demotedFrom_getElem? {m : ℚ} (hm : marking[n]? = some m) :
    (demotedFrom marking (n + 1))[n]? = some m := by
  obtain ⟨rest, hsucc, -⟩ := demotedFrom_split hm
  have hlen := length_take_of_getElem? hm
  rw [hsucc, List.getElem?_append_right hlen.le, hlen, Nat.sub_self, List.getElem?_cons_zero]

theorem qosRate_demoted (marking rate : List ℚ) :
    qosRate (marking.map fun m => if m > 0 then 0 else m) rate = 0 := by
  refine List.sum_eq_zero fun x hx => ?_
  obtain ⟨p, hp, rfl⟩ := List.mem_map.mp hx
  obtain ⟨m, -, hm⟩ := List.mem_map.mp (List.of_mem_zip hp).1
  refine if_neg ?_
  rw [← hm]
  split_ifs with hpos
  · exact lt_irrefl 0
  · exact hpos

theorem qosRate_demotedFrom (hlen : rate.length = marking.length) :
    qosRate (demotedFrom marking n) rate = qosRateBefore marking rate n := by
  have htake : (marking.take n).length = (rate.take n).length := by
    rw [List.length_take, List.length_take, hlen]
  conv_lhs => rw [← List.take_append_drop n rate]
  rw [demotedFrom, qosRate_append htake, qosRate_demoted, add_zero, qosRateBefore]

end Rates

section Loop
variable {marking rate : List ℚ} {nqosRateSum qosRateMin : ℚ}

theorem Demotes.mono {x y : ℚ} (h : Demotes nqosRateSum qosRateMin x) (hxy : x ≤ y) :
    Demotes nqosRateSum qosRateMin y := by
  obtain ⟨hhigh, hmin⟩ := h
  refine ⟨?_, hmin.trans_le hxy⟩
  unfold qosRateHighTarget at hhigh ⊢
  linarith

/-- The loop is left at the first position, from above, where the guard fails. -/
theorem demote_stops (hn : 0 ≤ nqosRateSum) (hlen : rate.length = marking.length) {n : ℕ}
    (hle : n ≤ rate.length) :
    ∃ k ≤ n, demote rate nqosRateSum qosRateMin n (qosRateBefore marking rate n)
          (demotedFrom marking n) = .ok (qosRateBefore marking rate k, demotedFrom marking k) ∧
      ¬ Demotes nqosRateSum qosRateMin (qosRateBefore marking rate k) ∧
      (k < n → Demotes nqosRateSum qosRateMin (qosRateBefore marking rate (k + 1))) := by
  induction n with
  | zero =>
    have hstop : ¬ Demotes nqosRateSum qosRateMin (qosRateBefore marking rate 0) := by
      rw [qosRateBefore_zero]
      intro h
      have hhigh := h.1
      unfold qosRateHighTarget at hhigh
      linarith
    exact ⟨0, le_rfl, by rw [demote, if_neg hstop], hstop, fun h => absurd h (lt_irrefl 0)⟩
  | succ n ih =>
    by_cases hguard : Demotes nqosRateSum qosRateMin (qosRateBefore marking rate (n + 1))
    · have hr : rate[n]? = some rate[n] := List.getElem?_eq_getElem hle
      obtain ⟨m, hm⟩ : ∃ m, marking[n]? = some m :=
        ⟨marking[n], List.getElem?_eq_getElem (hlen ▸ hle)⟩
      have hstep : demote rate nqosRateSum qosRateMin (n + 1) (qosRateBefore marking rate (n + 1))
          (demotedFrom marking (n + 1)) = demote rate nqosRateSum qosRateMin n
            (qosRateBefore marking rate n) (demotedFrom marking n) := by
        have hsum := qosRateBefore_succ hm hr
        rw [demote, if_pos hguard, demotedFrom_getElem? hm, hr, demotedFrom_set hm]
        by_cases hpos : m > 0
        · rw [if_pos hpos] at hsum
          simp only [if_pos hpos]
          rw [hsum, add_sub_cancel_right]
        · rw [if_neg hpos, add_zero] at hsum
          simp only [if_neg hpos]
          rw [hsum]
      obtain ⟨k, hk, hrun, hstop, hlast⟩ := ih (Nat.le_of_succ_le hle)
      refine ⟨k, Nat.le_succ_of_le hk, hstep.trans hrun, hstop, fun _ => ?_⟩
      cases hk.eq_or_lt with
      | inl heq => exact heq ▸ hguard
      | inr hlt => exact hlast hlt
    · exact ⟨n + 1, le_rfl, by rw [demote, if_neg hguard], hguard,
        fun h => absurd h (lt_irrefl _)⟩

end Loop

section Promotion
variable {marking rate : List ℚ}

theorem qosRate_cons (m r : ℚ) :
    qosRate (m :: marking) (r :: rate) = (if m > 0 then r else 0) + qosRate marking rate := by
  rw [qosRate, List.zip_cons_cons, List.map_cons, List.sum_cons, qosRate]

theorem qosRate_le_promoteFirst (h : ∀ r ∈ rate, 0 ≤ r) :
    qosRate marking rate ≤ qosRate (promoteFirst marking) rate := by
  induction marking generalizing rate with
  | nil => exact le_rfl
  | cons m rest ih =>
    cases rate with
    | nil => simp [qosRate]
    | cons r rate =>
      have hr : 0 ≤ r := h r List.mem_cons_self
      rw [promoteFirst]
      by_cases hm : m < 1
      · rw [if_pos hm, qosRate_cons, qosRate_cons, if_pos one_pos]
        apply add_le_add_left
        split_ifs
        · exact le_rfl
        · exact hr
      · rw [if_neg hm, qosRate_cons, qosRate_cons]
        exact add_le_add_right (ih fun x hx => h x (List.mem_cons_of_mem _ hx)) _

end Promotion

namespace QosMeasure
variable {m : QosMeasure}

/-- The client that carries the rate over both bounds is not needed for the floor. -/
def StopsInTime (m : QosMeasure) : Prop :=
  ∀ i < m.rate.length,
    Demotes m.nqosRateSum m.qosRateMin (qosRateBefore m.qosMarking m.rate (i + 1)) →
      m.qosRateMin ≤ qosRateBefore m.qosMarking m.rate i

/-- The marking is computed, and leaves 70% of the QoS rate that was there before, at least. -/
def KeepsFloor (m : QosMeasure) : Prop :=
  ∃ marking, m.newMarking = .ok marking ∧ m.qosRateMin ≤ qosRate marking m.rate

theorem qosRateMin_le (h : ∀ r ∈ m.rate, 0 ≤ r) : m.qosRateMin ≤ m.qosRateSum := by
  have hsum : 0 ≤ m.qosRateSum := qosRate_nonneg h
  rw [qosRateMin, qosRateMinRatio, qosRateLowTarget]
  linarith

theorem newMarking_of_promoted (hlen : m.rate.length = m.qosMarking.length)
    (h : ∀ r ∈ m.rate, 0 ≤ r)
    (hlow : m.qosRateSum < qosRateLowTarget * (m.qosRateSum + m.nqosRateSum)) :
    m.newMarking = .ok (promoteFirst m.qosMarking) ∧
      ¬ Demotes m.nqosRateSum m.qosRateMin m.qosRateSum := by
  have hq : 0 ≤ m.qosRateSum := qosRate_nonneg h
  have hn : 0 ≤ m.nqosRateSum := nqosRate_nonneg h
  have hstop : ¬ Demotes m.nqosRateSum m.qosRateMin m.qosRateSum := by
    intro hguard
    have hhigh := hguard.1
    unfold qosRateHighTarget at hhigh
    unfold qosRateLowTarget at hlow
    linarith
  refine ⟨?_, hstop⟩
  rw [newMarking, if_neg (not_not_intro hlen), promoted, if_pos hlow]
  cases m.rate.length with
  | zero => rw [demote, if_neg hstop]; rfl
  | succ n => rw [demote, if_neg hstop]; rfl

theorem newMarking_of_not_promoted (hlen : m.rate.length = m.qosMarking.length)
    (h : ∀ r ∈ m.rate, 0 ≤ r)
    (hlow : ¬ m.qosRateSum < qosRateLowTarget * (m.qosRateSum + m.nqosRateSum)) :
    ∃ k ≤ m.rate.length, m.newMarking = .ok (demotedFrom m.qosMarking k) ∧
      ¬ Demotes m.nqosRateSum m.qosRateMin (qosRateBefore m.qosMarking m.rate k) ∧
      (k < m.rate.length →
        Demotes m.nqosRateSum m.qosRateMin (qosRateBefore m.qosMarking m.rate (k + 1))) := by
  obtain ⟨k, hk, hrun, hstop, hlast⟩ :=
    @demote_stops m.qosMarking m.rate m.nqosRateSum m.qosRateMin (nqosRate_nonneg h) hlen _ le_rfl
  refine ⟨k, hk, ?_, hstop, hlast⟩
  rw [qosRateBefore_length hlen, demotedFrom_length hlen] at hrun
  rw [newMarking, if_neg (not_not_intro hlen), promoted, if_neg hlow]
  exact congrArg (Except.map Prod.snd) hrun

/-- What the demotions leave is above the floor exactly when the last client they take away is not
needed for it. -/
theorem newMarking_floor (hlen : m.rate.length = m.qosMarking.length) (h : ∀ r ∈ m.rate, 0 ≤ r) :
    ∃ marking, m.newMarking = .ok marking ∧
      (m.qosRateMin ≤ qosRate marking m.rate ↔ m.StopsInTime) := by
  have hfull := qosRateBefore_length hlen
  by_cases hlow : m.qosRateSum < qosRateLowTarget * (m.qosRateSum + m.nqosRateSum)
  · obtain ⟨hnew, hstop⟩ := newMarking_of_promoted hlen h hlow
    refine ⟨_, hnew, iff_of_true ?_ ?_⟩
    · exact (qosRateMin_le h).trans (qosRate_le_promoteFirst h)
    · intro i hi hguard
      have hmono := qosRateBefore_mono h hlen (Nat.succ_le_of_lt hi) le_rfl
      exact absurd (hguard.mono (hmono.trans_eq hfull)) hstop
  · obtain ⟨k, hk, hnew, hstop, hlast⟩ := newMarking_of_not_promoted hlen h hlow
    refine ⟨_, hnew, ?_⟩
    rw [qosRate_demotedFrom hlen]
    constructor
    · intro hfloor i hi hguard
      by_cases hik : k ≤ i
      · exact hfloor.trans (qosRateBefore_mono h hlen hik hi.le)
      · have hmono := qosRateBefore_mono h hlen (Nat.succ_le_of_lt (not_le.mp hik)) hk
        exact absurd (hguard.mono hmono) hstop
    · intro htime
      cases hk.eq_or_lt with
      | inl heq =>
        rw [heq, hfull]
        exact qosRateMin_le h
      | inr hlt => exact htime k hlt (hlast hlt)

theorem keepsFloor_iff (hlen : m.rate.length = m.qosMarking.length) (h : ∀ r ∈ m.rate, 0 ≤ r) :
    m.KeepsFloor ↔ m.StopsInTime := by
  obtain ⟨marking, hnew, hiff⟩ := newMarking_floor hlen h
  rw [KeepsFloor, hnew]
  constructor
  · rintro ⟨marking', heq, hfloor⟩
    cases heq
    exact hiff.mp hfloor
  · intro htime
    exact ⟨marking, rfl, hiff.mpr htime⟩

end QosMeasure

theorem QosMaps.calcQosMarkingActionPerSlice_total {s : QosMaps} {m : QosMeasure} {cid : ℤ}
    {dl : Bool} {marking : List ℚ} (hnew : m.newMarking = .ok marking)
    (hid : ¬ m.clientId.length < m.rate.length) :
    ∃ s', s.calcQosMarkingActionPerSlice m cid dl = .ok s' := by
  refine ⟨(m.clientId.zip marking).foldl (fun s p => s.store dl cid p.1 p.2) s, ?_⟩
  rw [QosMaps.calcQosMarkingActionPerSlice, hnew, bind_eq_ok]
  exact ⟨marking, rfl, if_neg hid⟩

namespace GmaDataProcessor
variable {p : GmaDataProcessor} {m : QosMeasure} {cid : ℤ}

theorem Grouped.rate_mem {groups : List (GroupKey × QosMeasure)} {done : List QosRow}
    (h : Grouped p cid groups done) {group : GroupKey × QosMeasure} (hg : group ∈ groups) {r : ℚ}
    (hr : r ∈ group.2.rate) : r ∈ done.map QosRow.rate := by
  rw [h.eq_ofRows hg] at hr
  obtain ⟨row, hrow, rfl⟩ := List.mem_map.mp hr
  exact List.mem_map_of_mem (List.mem_filter.mp hrow).1

/-- The demotions of every group end, and inside the list of its clients. -/
theorem calcQosMarkingAction_keepsFloor_iff (p : GmaDataProcessor) (s : QosMaps) (m : QosMeasure)
    (cid : ℤ) (dl : Bool) (hmark : m.rate.length = m.qosMarking.length)
    (hid : m.rate.length = m.clientId.length)
    (hcell : ∀ clientId ∈ m.clientId, p.clientIdToCellIdMap (clientId, cid) ≠ none)
    (h : ∀ r ∈ m.rate, 0 ≤ r) :
    ∃ groups s', p.groups cid m.rows = .ok groups ∧ p.calcQosMarkingAction s m cid dl = .ok s' ∧
      ∀ group ∈ groups, group.2.KeepsFloor ↔ group.2.StopsInTime := by
  have hrows := QosMeasure.ofRows_rows hmark hid
  have hclients : m.rows.map QosRow.clientId = m.clientId := congrArg QosMeasure.clientId hrows
  have hrates : m.rows.map QosRow.rate = m.rate := congrArg QosMeasure.rate hrows
  obtain ⟨groups, hgroups⟩ : ∃ groups, p.groups cid m.rows = .ok groups :=
    groups_total fun row hrow => hcell row.clientId (hclients ▸ List.mem_map_of_mem hrow)
  have hgrouped := groups_grouped hgroups
  have hlen : ∀ group ∈ groups, group.2.rate.length = group.2.qosMarking.length := by
    intro group hg
    rw [hgrouped.eq_ofRows hg, QosMeasure.ofRows, List.length_map, List.length_map]
  have hnonneg : ∀ group ∈ groups, ∀ r ∈ group.2.rate, 0 ≤ r := by
    intro group hg r hr
    exact h r (hrates ▸ hgrouped.rate_mem hg hr)
  obtain ⟨s', hrun⟩ : ∃ s', groups.foldlM
      (fun s group => s.calcQosMarkingActionPerSlice group.2 cid dl) s = .ok s' := by
    apply foldlM_total (P := fun _ rest => ∀ group ∈ rest, group ∈ groups)
    · intro s group rest hrest
      have hg := hrest group List.mem_cons_self
      obtain ⟨marking, hnew, -⟩ := QosMeasure.newMarking_floor (hlen group hg) (hnonneg group hg)
      have hclient : ¬ group.2.clientId.length < group.2.rate.length := by
        rw [hgrouped.eq_ofRows hg, QosMeasure.ofRows, List.length_map, List.length_map]
        exact lt_irrefl _
      obtain ⟨s', hstep⟩ := QosMaps.calcQosMarkingActionPerSlice_total (s := s) hnew hclient
      exact ⟨s', hstep, fun other hother => hrest other (List.mem_cons_of_mem _ hother)⟩
    · exact fun _ hg => hg
  refine ⟨groups, s', hgroups, ?_, fun group hg =>
    QosMeasure.keepsFloor_iff (hlen group hg) (hnonneg group hg)⟩
  rw [calcQosMarkingAction, if_neg (not_or.mpr ⟨not_not_intro hmark, not_not_intro hid⟩),
    hgroups]
  exact hrun

theorem calcQosMarkingAction_keepsFloor_iff_parity :
    ∃ groups s', parityCells.groups 0 (QosMeasure.rows ⟨[5, 3, 2], [1, 0, 0], [0, 2, 1]⟩) =
        .ok groups ∧
      parityCells.calcQosMarkingAction {} ⟨[5, 3, 2], [1, 0, 0], [0, 2, 1]⟩ 0 true = .ok s' ∧
      ∀ group ∈ groups, group.2.KeepsFloor ↔ group.2.StopsInTime := by
  apply calcQosMarkingAction_keepsFloor_iff
  · rfl
  · rfl
  · intro clientId _
    exact Option.some_ne_none _
  · decide +kernel

/-- The only QoS client of a group without others is demoted, and nothing of its rate 10 is left. -/
theorem calcQosMarkingAction_soleClient :
    ∃ s', parityCells.groups 0 (QosMeasure.rows ⟨[10], [1], [0]⟩) =
        .ok [(toLex (0, 0), ⟨[10], [1], [0]⟩)] ∧
      parityCells.calcQosMarkingAction {} ⟨[10], [1], [0]⟩ 0 true = .ok s' ∧
      ¬ QosMeasure.KeepsFloor ⟨[10], [1], [0]⟩ := by
  obtain ⟨s', hrun⟩ : ∃ s', parityCells.calcQosMarkingAction {} ⟨[10], [1], [0]⟩ 0 true =
      .ok s' := exists_ok (by decide +kernel)
  refine ⟨s', rfl, hrun, ?_⟩
  rintro ⟨marking, hnew, hfloor⟩
  have hzero : QosMeasure.newMarking ⟨[10], [1], [0]⟩ = .ok [0] := by decide +kernel
  cases hzero.symm.trans hnew
  exact absurd hfloor (by decide +kernel)

end GmaDataProcessor
end NetGymSim.Gma

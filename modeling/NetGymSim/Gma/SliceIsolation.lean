import Mathlib.Data.List.Flatten
import Mathlib.Data.List.Perm.Subperm
import NetGymSim.Gma.SlicePicks

/-!
# Isolation of the slices in a TTI

In the first run an RBG goes to the slice it is marked for, in the second one no RBG marked
as dedicated is given away, and only the second run compares what a slice has with its
maximum. A slice therefore stays below its maximum when no more RBGs than that are marked
for it, which a count that makes the sum of the three wrap around breaks.
-/

namespace NetGymSim.Gma
open NetGymSim.Lib
variable {R : Type}

def rbgMark (slices : List (ℕ × SliceInfo)) (rbgNum r : ℕ) : RbgType × ℕ :=
  getRbgSliceInfo slices (rbgNum - 1 - r)

def markedRbgs (slices : List (ℕ × SliceInfo)) (rbgNum sliceId : ℕ) : List ℕ :=
  (List.range rbgNum).filter fun r => (rbgMark slices rbgNum r).2 = sliceId

def Allocation.rbgsOf (s : NsPfScheduler R) (sliceId : ℕ) (a : Allocation R) : List ℕ :=
  (a.allocationMap.filter fun entry => s.sliceOf entry.1 = some sliceId).flatMap Prod.snd

section Turn
variable {radio : Radio R} {rbgNum rbgSize : ℕ} {rntiAllocated : List ℕ} {run i : ℕ}
  {s : NsPfScheduler R} {a a' : Allocation R}

structure Grants (s : NsPfScheduler R) (rbgNum run i : ℕ) (a a' : Allocation R)
    (rnti sliceId : ℕ) : Prop where
  free : FreeRbg a.rbgMap i
  slice : s.sliceOf rnti = some sliceId
  admits : sliceAdmits run (rbgMark s.sliceInfoMap rbgNum i) sliceId
    (a.sliceRbgUsageMap sliceId) (s.maxRbgs sliceId) = true
  rbgMap : a'.rbgMap = a.rbgMap.set i true
  allocationMap : a'.allocationMap = OrderedMap.push (· < ·) rnti i a.allocationMap
  usage : a'.sliceRbgUsageMap = Function.update a.sliceRbgUsageMap sliceId
    (add32 (a.sliceRbgUsageMap sliceId) 1)

theorem allocateRbg_turn (hsorted : OrderedMap.Sorted s.flowStatsDl)
    (hsame : SameButScheduled s a.sched)
    (h : allocateRbg radio rbgNum rbgSize rntiAllocated run a i = .ok a') :
    a'.allocationMap = a.allocationMap ∧ a'.sliceRbgUsageMap = a.sliceRbgUsageMap ∧
        a'.rbgMap = a.rbgMap ∨
      ∃ rnti sliceId, Grants s rbgNum run i a a' rnti sliceId := by
  obtain ⟨_, ⟨_, rfl⟩ |
    ⟨hfree, pick, hpick, ⟨_, rfl⟩ | ⟨rnti, flow, hmax, hmap, halloc, husage⟩⟩⟩ := allocateRbg_spec h
  · exact .inl ⟨rfl, rfl, rfl⟩
  · exact .inl ⟨rfl, rfl, rfl⟩
  · obtain ⟨hmem, hadmits⟩ := pickUser_some hpick hmax
    obtain ⟨_, _, hs⟩ := hsame
    rw [hs] at hmem hadmits
    refine .inr ⟨rnti, flow.sliceId, hfree, ?_, hadmits, hmap, halloc, husage⟩
    rw [NsPfScheduler.sliceOf, hsorted.find hmem]
    rfl

theorem Grants.length_rbgsOf {rnti sliceId : ℕ} (h : Grants s rbgNum run i a a' rnti sliceId)
    (other : ℕ) : (a'.rbgsOf s other).length =
      (a.rbgsOf s other).length + if other = sliceId then 1 else 0 := by
  rw [Allocation.rbgsOf, Allocation.rbgsOf, h.allocationMap,
    (OrderedMap.flatMap_filter_push (fun k => decide (s.sliceOf k = some other)) rnti i
      a.allocationMap).length_eq, h.slice]
  by_cases heq : other = sliceId
  · simp [heq]
  · have hne : ¬ sliceId = other := fun hs => heq hs.symm
    simp [heq, hne]

theorem Grants.entry {rnti sliceId : ℕ} (h : Grants s rbgNum run i a a' rnti sliceId)
    {entry : ℕ × List ℕ} (hentry : entry ∈ a'.allocationMap) {r : ℕ} (hr : r ∈ entry.2) :
    entry.1 = rnti ∧ r = i ∨ ∃ old ∈ a.allocationMap, old.1 = entry.1 ∧ r ∈ old.2 := by
  rw [h.allocationMap] at hentry
  apply (OrderedMap.mem_push hentry hr).imp id
  rintro ⟨v₀, hold, hr₀⟩
  exact ⟨(entry.1, v₀), hold, rfl, hr₀⟩

theorem allocateRbg_free (h : allocateRbg radio rbgNum rbgSize rntiAllocated run a i = .ok a')
    {r : ℕ} (hr : FreeRbg a'.rbgMap r) : FreeRbg a.rbgMap r := by
  obtain ⟨_, ⟨_, rfl⟩ | ⟨_, pick, _, ⟨_, rfl⟩ | ⟨rnti, flow, _, hmap, _⟩⟩⟩ := allocateRbg_spec h
  · exact hr
  · exact hr
  · rw [FreeRbg, hmap, List.getElem?_set] at hr
    split_ifs at hr
    · cases hr
    · exact hr

end Turn

section Runs
variable {radio : Radio R} {rbgNum rbgSize : ℕ} {rntiAllocated : List ℕ} {run i : ℕ}
  {s : NsPfScheduler R} {rbgMap : List Bool} {a a' : Allocation R}

structure Counted (s : NsPfScheduler R) (rbgNum : ℕ) (rbgMap : List Bool) (a : Allocation R) :
    Prop where
  once : GivenOnce rbgNum rbgMap a
  same : SameButScheduled s a.sched
  usage : ∀ sliceId, a.sliceRbgUsageMap sliceId = (a.rbgsOf s sliceId).length

theorem Counted.rbgsOf_sublist (s : NsPfScheduler R) (sliceId : ℕ) (a : Allocation R) :
    (a.rbgsOf s sliceId).Sublist a.given :=
  List.filter_sublist.flatMap Prod.snd

theorem Counted.length_le (h : Counted s rbgNum rbgMap a) {sliceId : ℕ} {l : List ℕ}
    (hl : ∀ r ∈ a.rbgsOf s sliceId, r ∈ l) : (a.rbgsOf s sliceId).length ≤ l.length :=
  ((h.once.nodup.sublist (rbgsOf_sublist s sliceId a)).subperm hl).length_le

theorem Counted.turn (hsorted : OrderedMap.Sorted s.flowStatsDl) (hnum : rbgNum ≤ 32)
    (hc : Counted s rbgNum rbgMap a) (hi : i < rbgNum)
    (h : allocateRbg radio rbgNum rbgSize rntiAllocated run a i = .ok a') :
    Counted s rbgNum rbgMap a' := by
  refine ⟨hc.once.allocateRbg hi h, hc.same.trans (allocateRbg_spec h).1, ?_⟩
  intro other
  obtain ⟨halloc, husage, _⟩ | ⟨rnti, sliceId, hg⟩ := allocateRbg_turn hsorted hc.same h
  · rw [husage, Allocation.rbgsOf, halloc]
    exact hc.usage other
  · rw [hg.usage, hg.length_rbgsOf]
    by_cases heq : other = sliceId
    · have hle : (a.rbgsOf s sliceId).length ≤ (List.range rbgNum).length :=
        hc.length_le fun r hr =>
          List.mem_range.mpr (hc.once.inBand r ((rbgsOf_sublist s sliceId a).subset hr))
      rw [List.length_range] at hle
      rw [heq, Function.update_self, if_pos rfl, hc.usage, add32]
      omega
    · rw [Function.update_of_ne heq, if_neg heq, hc.usage]
      rfl

def firstAllocation (s : NsPfScheduler R) (rbgMap : List Bool) : Allocation R :=
  ⟨{ s with scheduledBytesPerLc := fun _ => none }, rbgMap, [], [], fun _ => 0⟩

theorem Counted.start (s : NsPfScheduler R) (rbgNum : ℕ) (rbgMap : List Bool) :
    Counted s rbgNum rbgMap (firstAllocation s rbgMap) := by
  refine ⟨⟨List.nodup_nil, ?_, ?_, ?_, fun _ hr => hr⟩, ⟨_, _, rfl⟩, fun _ => rfl⟩
  all_goals exact fun _ hr => (List.not_mem_nil hr).elim

def Owned (s : NsPfScheduler R) (rbgNum : ℕ) (other : ℕ → Prop) (a : Allocation R) : Prop :=
  ∀ entry ∈ a.allocationMap, ∀ r ∈ entry.2,
    s.sliceOf entry.1 = some (rbgMark s.sliceInfoMap rbgNum r).2 ∨ other r

theorem Owned.turn (hsorted : OrderedMap.Sorted s.flowStatsDl) {other : ℕ → Prop}
    (hsame : SameButScheduled s a.sched) (ho : Owned s rbgNum other a)
    (hother : run ≠ 0 → (rbgMark s.sliceInfoMap rbgNum i).1 ≠ .dedicated →
      FreeRbg a.rbgMap i → other i)
    (h : allocateRbg radio rbgNum rbgSize rntiAllocated run a i = .ok a') :
    Owned s rbgNum other a' := by
  intro entry hentry r hr
  obtain ⟨halloc, _⟩ | ⟨rnti, sliceId, hg⟩ := allocateRbg_turn hsorted hsame h
  · exact ho entry (halloc ▸ hentry) r hr
  · obtain ⟨hrnti, rfl⟩ | ⟨old, hold, hkey, hr₀⟩ := hg.entry hentry hr
    · rw [hrnti, hg.slice]
      have hadmits := hg.admits
      by_cases hrun : run = 0
      · rw [sliceAdmits, if_pos hrun] at hadmits
        exact .inl (congrArg some (of_decide_eq_true hadmits).symm)
      · rw [sliceAdmits, if_neg hrun, Bool.and_eq_true] at hadmits
        exact .inr (hother hrun (of_decide_eq_true hadmits.1) hg.free)
    · rw [← hkey]
      exact ho old hold r hr₀

def WithinMax (s : NsPfScheduler R) (a : Allocation R) : Prop :=
  ∀ sliceId info, OrderedMap.find s.sliceInfoMap sliceId = some info →
    (a.rbgsOf s sliceId).length ≤ info.maxRbg

theorem WithinMax.turn (hsorted : OrderedMap.Sorted s.flowStatsDl)
    (hc : Counted s rbgNum rbgMap a) (hw : WithinMax s a)
    (h : allocateRbg radio rbgNum rbgSize rntiAllocated 1 a i = .ok a') : WithinMax s a' := by
  intro other info hinfo
  have hle := hw other info hinfo
  obtain ⟨halloc, _⟩ | ⟨rnti, sliceId, hg⟩ := allocateRbg_turn hsorted hc.same h
  · rw [Allocation.rbgsOf, halloc]
    exact hle
  · rw [hg.length_rbgsOf]
    by_cases heq : other = sliceId
    · have hadmits := hg.admits
      rw [sliceAdmits, if_neg (by decide), Bool.and_eq_true] at hadmits
      have hlt := of_decide_eq_true hadmits.2
      rw [← heq, hc.usage, NsPfScheduler.maxRbgs, hinfo] at hlt
      rw [if_pos heq]
      exact hlt
    · rw [if_neg heq]
      exact hle

theorem Owned.length_le (ho : Owned s rbgNum (fun _ => False) a)
    (hc : Counted s rbgNum rbgMap a) (sliceId : ℕ) :
    (a.rbgsOf s sliceId).length ≤ (markedRbgs s.sliceInfoMap rbgNum sliceId).length := by
  apply hc.length_le
  intro r hr
  have hband := hc.once.inBand r ((Counted.rbgsOf_sublist s sliceId a).subset hr)
  obtain ⟨entry, hentry, hr⟩ := List.mem_flatMap.mp hr
  obtain ⟨hentry, hslice⟩ := List.mem_filter.mp hentry
  have hslice := of_decide_eq_true hslice
  cases ho entry hentry r hr with
  | inl hmark =>
    rw [hslice] at hmark
    refine List.mem_filter.mpr ⟨List.mem_range.mpr hband, ?_⟩
    exact decide_eq_true (Option.some.inj hmark).symm
  | inr hno => exact hno.elim

theorem firstRun_left {first : Allocation R}
    (h : allocationRun radio rbgNum rbgSize rntiAllocated 0 a = .ok first) {r : ℕ}
    (hr : r < rbgNum) (hfree : FreeRbg first.rbgMap r) :
    ∃ b pick, (List.range r).foldlM (allocateRbg radio rbgNum rbgSize rntiAllocated 0) a = .ok b ∧
      pickUser radio rbgNum rbgSize rntiAllocated 0 b r = .ok pick ∧ pick.itMax = none := by
  obtain ⟨k, rfl⟩ : ∃ k, rbgNum = r + (k + 1) := ⟨rbgNum - r - 1, by omega⟩
  unfold allocationRun at h
  rw [List.range_add, List.foldlM_append, bind_eq_ok] at h
  obtain ⟨b, hb, h⟩ := h
  rw [List.range_succ_eq_map, List.map_cons, List.foldlM_cons, bind_eq_ok] at h
  obtain ⟨c, hturn, hrest⟩ := h
  have hturn : allocateRbg radio (r + (k + 1)) rbgSize rntiAllocated 0 b r = .ok c := hturn
  have hafter : FreeRbg c.rbgMap r :=
    foldlM_inv (P := fun q _ => FreeRbg q.rbgMap r → FreeRbg c.rbgMap r)
      (fun _ _ _ _ hq hstep hnow => hq (allocateRbg_free hstep hnow)) id hrest hfree
  obtain ⟨_, ⟨htaken, rfl⟩ | ⟨hbefore, pick, hpick, ⟨hnone, _⟩ | ⟨rnti, flow, _, hmap, _⟩⟩⟩ :=
    allocateRbg_spec hturn
  · rw [FreeRbg, htaken] at hafter
    cases hafter
  · exact ⟨b, pick, hb, hpick, hnone⟩
  · obtain ⟨hlt, _⟩ := List.getElem?_eq_some_iff.mp hbefore
    rw [FreeRbg, hmap, List.getElem?_set_self hlt] at hafter
    cases hafter

def SlicesFit (slices : List (ℕ × SliceInfo)) (rbgNum : ℕ) : Prop :=
  ∀ sliceId info, OrderedMap.find slices sliceId = some info →
    (markedRbgs slices rbgNum sliceId).length ≤ info.maxRbg

/-- The first run came to an RBG that is not dedicated and found nobody to serve. -/
def LeftOver (radio : Radio R) (rbgNum rbgSize : ℕ) (rntiAllocated : List ℕ)
    (s : NsPfScheduler R) (rbgMap : List Bool) (r : ℕ) : Prop :=
  (rbgMark s.sliceInfoMap rbgNum r).1 ≠ .dedicated ∧
    ∃ b, (List.range r).foldlM (allocateRbg radio rbgNum rbgSize rntiAllocated 0)
        (firstAllocation s rbgMap) = .ok b ∧
      ∀ rnti, s.sliceOf rnti = some (rbgMark s.sliceInfoMap rbgNum r).2 →
        ¬ Eligible radio b.sched rntiAllocated r rnti

theorem SameButScheduled.sane {avg : R → Prop} {s s' : NsPfScheduler R}
    (h : SameButScheduled s s') (hs : Sane avg s) : Sane avg s' := by
  obtain ⟨_, _, rfl⟩ := h
  exact ⟨hs.sorted, hs.averages, hs.txModes⟩

theorem firstRun_leftOver {rate avg : R → Prop} (hr : PositiveRates radio rate avg)
    (hsize : 0 < rbgSize) (hs : Sane avg s) {first : Allocation R}
    (h : allocationRun radio rbgNum rbgSize rntiAllocated 0 (firstAllocation s rbgMap) = .ok first)
    (hi : i < rbgNum) (hdedicated : (rbgMark s.sliceInfoMap rbgNum i).1 ≠ .dedicated)
    (hfree : FreeRbg first.rbgMap i) :
    LeftOver radio rbgNum rbgSize rntiAllocated s rbgMap i := by
  obtain ⟨b, pick, hb, hpick, hnone⟩ := firstRun_left h hi hfree
  have hsame : SameButScheduled s b.sched :=
    foldlM_inv (P := fun q _ => SameButScheduled s q.sched)
      (fun _ _ _ _ hq hstep => hq.trans (allocateRbg_spec hstep).1) ⟨_, _, rfl⟩ hb
  refine ⟨hdedicated, b, hb, ?_⟩
  intro rnti hslice
  apply pickUser_none hr hsize (hsame.sane hs) hpick hnone
  obtain ⟨_, _, hbs⟩ := hsame
  rw [hbs]
  exact hslice

theorem firstRun_spec (hsorted : OrderedMap.Sorted s.flowStatsDl) (hnum : rbgNum ≤ 32)
    {first : Allocation R}
    (h : allocationRun radio rbgNum rbgSize rntiAllocated 0 (firstAllocation s rbgMap) =
      .ok first) :
    Counted s rbgNum rbgMap first ∧ Owned s rbgNum (fun _ => False) first := by
  apply allocationRun_invariant
    (P := fun b => Counted s rbgNum rbgMap b ∧ Owned s rbgNum (fun _ => False) b) _ _ h
  · rintro b i b' hi ⟨hc, ho⟩ hturn
    refine ⟨hc.turn hsorted hnum hi hturn, ho.turn hsorted hc.same ?_ hturn⟩
    intro hrun
    exact absurd rfl hrun
  · exact ⟨Counted.start s rbgNum rbgMap, fun _ hentry => (List.not_mem_nil hentry).elim⟩

theorem allocate_isolated {rate avg : R → Prop} (hr : PositiveRates radio rate avg)
    (hsize : 0 < rbgSize) (hnum : rbgNum ≤ 32) (hs : Sane avg s)
    (hfit : SlicesFit s.sliceInfoMap rbgNum)
    (h : allocate radio rbgNum rbgSize rntiAllocated s rbgMap = .ok a) :
    Counted s rbgNum rbgMap a ∧ WithinMax s a ∧
      Owned s rbgNum (LeftOver radio rbgNum rbgSize rntiAllocated s rbgMap) a := by
  unfold allocate at h
  obtain ⟨first, hfirst, hsecond⟩ := bind_eq_ok.mp h
  obtain ⟨hcounted, howned⟩ := firstRun_spec hs.sorted hnum hfirst
  have hall := allocationRun_invariant
    (P := fun b => Counted s rbgNum rbgMap b ∧ WithinMax s b ∧
      Owned s rbgNum (LeftOver radio rbgNum rbgSize rntiAllocated s rbgMap) b ∧
      ∀ r, FreeRbg b.rbgMap r → FreeRbg first.rbgMap r) ?_ ?_ hsecond
  · exact ⟨hall.1, hall.2.1, hall.2.2.1⟩
  · rintro b i b' hi ⟨hc, hw, ho, hfree⟩ hturn
    refine ⟨hc.turn hs.sorted hnum hi hturn, hw.turn hs.sorted hc hturn, ?_, ?_⟩
    · apply ho.turn hs.sorted hc.same _ hturn
      intro _ hdedicated hnow
      exact firstRun_leftOver hr hsize hs hfirst hi hdedicated (hfree i hnow)
    · intro r hnow
      exact hfree r (allocateRbg_free hturn hnow)
  · refine ⟨hcounted, ?_, ?_, fun _ hnow => hnow⟩
    · intro sliceId info hinfo
      exact (howned.length_le hcounted sliceId).trans (hfit sliceId info hinfo)
    · intro entry hentry r hr
      exact (howned entry hentry r hr).imp id False.elim

end Runs

section Trigger

def NsPfScheduler.rbgSize (s : NsPfScheduler R) : ℕ := (getRbgSize s.dlBandwidth).getD 1

def NsPfScheduler.mark (s : NsPfScheduler R) (r : ℕ) : RbgType × ℕ :=
  rbgMark s.sliceInfoMap s.rbgNum r

def newData (radio : Radio R) (s : NsPfScheduler R) (dlInfoList : List DlInfo) :
    Except Fault (List BuildData) := do
  let harq ← processDlHarq radio s.rbgNum s.refreshDlCqiMaps dlInfoList
  let (_, build) ← doSchedDlTriggerReq radio s dlInfoList
  pure (build.drop harq.buildDataList.length)

/-- The first run of a trigger when it comes to an RBG, and the users with retransmissions. -/
def firstRunAt (radio : Radio R) (s : NsPfScheduler R) (dlInfoList : List DlInfo) (r : ℕ) :
    Except Fault (Allocation R × List ℕ) := do
  let harq ← processDlHarq radio s.rbgNum s.refreshDlCqiMaps dlInfoList
  let b ← (List.range r).foldlM (allocateRbg radio s.rbgNum s.rbgSize harq.rntiAllocated 0)
    (firstAllocation harq.sched harq.rbgMap)
  pure (b, harq.rntiAllocated)

structure Isolated (radio : Radio R) (s : NsPfScheduler R) (dlInfoList : List DlInfo)
    (new : List BuildData) : Prop where
  cap : ∀ sliceId info, OrderedMap.find s.sliceInfoMap sliceId = some info →
    (builtRbgs (new.filter fun el => s.sliceOf el.rnti = some sliceId)).length ≤ info.maxRbg
  dedicated : ∀ el ∈ new, ∀ r ∈ dciRbgs el.dci.rbBitmap, (s.mark r).1 = .dedicated →
    s.sliceOf el.rnti = some (s.mark r).2
  prioritized : ∀ el ∈ new, ∀ r ∈ dciRbgs el.dci.rbBitmap, (s.mark r).1 = .prioritized →
    s.sliceOf el.rnti ≠ some (s.mark r).2 →
    ∃ b rntiAllocated, firstRunAt radio s dlInfoList r = .ok (b, rntiAllocated) ∧
      ∀ rnti, s.sliceOf rnti = some (s.mark r).2 → ¬ Eligible radio b.sched rntiAllocated r rnti

variable {radio : Radio R} {s : NsPfScheduler R} {infos : List DlInfo} {new : List BuildData}

theorem newData_spec (h : newData radio s infos = .ok new) :
    ∃ harq, processDlHarq radio s.rbgNum s.refreshDlCqiMaps infos = .ok harq ∧
      (new = [] ∨ getRbgSize s.dlBandwidth = some s.rbgSize ∧ ∃ a,
        allocate radio s.rbgNum s.rbgSize harq.rntiAllocated harq.sched harq.rbgMap = .ok a ∧
        new.map (fun el => (el.rnti, el.dci.rbBitmap)) =
          a.allocationMap.map fun entry => (entry.1, rbgMask entry.2)) := by
  unfold newData at h
  obtain ⟨harq, hharq, h⟩ := bind_eq_ok.mp h
  obtain ⟨⟨s', build⟩, htrigger, h⟩ := bind_eq_ok.mp h
  refine ⟨harq, hharq, ?_⟩
  rw [← pure_eq_ok.mp h]
  unfold doSchedDlTriggerReq at htrigger
  dsimp only at htrigger
  have hbandwidth : s.refreshDlCqiMaps.dlBandwidth = s.dlBandwidth := rfl
  rw [hbandwidth] at htrigger
  cases hsize : getRbgSize s.dlBandwidth with
  | none =>
    rw [hsize] at htrigger
    cases htrigger
  | some rbgSize =>
    have hrbgSize : s.rbgSize = rbgSize := by rw [NsPfScheduler.rbgSize, hsize]; rfl
    have hrbgNum : s.dlBandwidth / rbgSize = s.rbgNum := by
      rw [NsPfScheduler.rbgNum, hsize]
      rfl
    rw [hsize] at htrigger
    dsimp only at htrigger
    rw [hrbgNum, hharq] at htrigger
    obtain ⟨_, hsame, htrigger⟩ := bind_eq_ok.mp htrigger
    cases hsame
    by_cases hfull : harq.rbgAllocatedNum = s.rbgNum
    · rw [if_pos hfull] at htrigger
      cases pure_eq_ok.mp htrigger
      exact .inl (List.drop_length ..)
    · rw [if_neg hfull] at htrigger
      obtain ⟨⟨t, new⟩, hnew, htrigger⟩ := bind_eq_ok.mp htrigger
      cases pure_eq_ok.mp htrigger
      obtain ⟨a, u, ha, _, _, hlist⟩ := scheduleNewData_spec hnew
      rw [List.drop_left, hrbgSize]
      exact .inr ⟨rfl, a, ha, hlist⟩

theorem rbgSize_pos {bandwidth rbgSize : ℕ} (h : getRbgSize bandwidth = some rbgSize) :
    0 < rbgSize := by
  unfold getRbgSize at h
  split_ifs at h <;> cases h <;> omega

theorem builtRbgs_length {rbgNum : ℕ} (hnum : rbgNum ≤ 32) {rbgMap : List Bool}
    {a : Allocation R} (hg : GivenOnce rbgNum rbgMap a)
    (hlist : new.map (fun el => (el.rnti, el.dci.rbBitmap)) =
      a.allocationMap.map fun entry => (entry.1, rbgMask entry.2)) (sliceId : ℕ) :
    (builtRbgs (new.filter fun el => s.sliceOf el.rnti = some sliceId)).length =
      (a.rbgsOf s sliceId).length := by
  have hview : builtRbgs (new.filter fun el => s.sliceOf el.rnti = some sliceId) =
      ((new.map fun el => (el.rnti, el.dci.rbBitmap)).filter
        fun el => s.sliceOf el.1 = some sliceId).flatMap fun el => dciRbgs el.2 := by
    rw [List.filter_map, List.flatMap_map]
    rfl
  have hlength : ∀ entry ∈ a.allocationMap,
      (dciRbgs (rbgMask entry.2)).length = entry.2.length := by
    intro entry hentry
    apply List.Perm.length_eq
    rw [List.perm_ext_iff_of_nodup (dciRbgs_nodup _) ((List.nodup_flatMap.mp hg.nodup).1 _ hentry)]
    exact hg.mem_mask hnum hentry
  rw [hview, hlist, List.filter_map, List.flatMap_map, Allocation.rbgsOf, List.length_flatMap,
    List.length_flatMap]
  congr 1
  apply List.map_congr_left
  intro entry hentry
  exact hlength entry (List.mem_filter.mp hentry).1

def MarksFit (s : NsPfScheduler R) : Prop := SlicesFit s.sliceInfoMap s.rbgNum

/-- In every state a run reaches and for every feedback the slices are isolated when the marks of
each slice stay within its maximum. -/
theorem slices_isolated {rate avg : R → Prop} (hr : PositiveRates radio rate avg) {harqOn : Bool}
    {dlBandwidth : ℕ} {es : List NsPfEvent}
    (hrun : (NsPfScheduler.machine radio).Reaches (.start harqOn dlBandwidth) es s)
    (hfit : MarksFit s) {ffr : Ffr}
    (hnew : newData { radio with toFfr := ffr } s infos = .ok new) :
    Isolated { radio with toFfr := ffr } s infos new := by
  obtain ⟨harq, hharq, rfl | ⟨hsize, a, ha, hlist⟩⟩ := newData_spec hnew
  · refine ⟨fun _ _ _ => Nat.zero_le _, ?_, ?_⟩
    all_goals exact fun _ hel => (List.not_mem_nil hel).elim
  · obtain ⟨husers, htxModes, hslices⟩ := processDlHarq_same hharq
    have hslices : harq.sched.sliceInfoMap = s.sliceInfoMap := hslices
    have hsliceOf : ∀ rnti, harq.sched.sliceOf rnti = s.sliceOf rnti := sliceOf_of_view husers
    have hsane : Sane avg harq.sched :=
      Sane.of_view (s := s) (Sane.of_reaches hr hrun) husers htxModes
    have hnum : s.rbgNum ≤ 32 := by
      rw [NsPfScheduler.rbgNum, hsize]
      exact rbgNum_le hsize
    obtain ⟨hcounted, hwithin, howned⟩ := allocate_isolated (hr.withFfr ffr) (rbgSize_pos hsize)
      hnum hsane (hslices ▸ hfit) ha
    -- an RBG of an element is one its user was given
    have hgiven : ∀ el ∈ new, ∀ r ∈ dciRbgs el.dci.rbBitmap,
        s.sliceOf el.rnti = some (s.mark r).2 ∨
          LeftOver { radio with toFfr := ffr } s.rbgNum s.rbgSize harq.rntiAllocated harq.sched
            harq.rbgMap r := by
      intro el hel r hr
      have hmem : (el.rnti, el.dci.rbBitmap) ∈
          a.allocationMap.map fun entry => (entry.1, rbgMask entry.2) :=
        hlist ▸ List.mem_map_of_mem hel
      obtain ⟨entry, hentry, heq⟩ := List.mem_map.mp hmem
      obtain ⟨hrnti, hmask⟩ := Prod.mk.inj heq
      rw [← hmask, hcounted.once.mem_mask hnum hentry] at hr
      have hown := howned entry hentry r hr
      rw [hrnti, hsliceOf, hslices] at hown
      exact hown
    constructor
    · intro sliceId info hinfo
      have hle := hwithin sliceId info (hslices ▸ hinfo)
      rw [← builtRbgs_length hnum hcounted.once hlist] at hle
      simp only [hsliceOf] at hle
      exact hle
    · intro el hel r hr hdedicated
      cases hgiven el hel r hr with
      | inl hown => exact hown
      | inr hleft =>
        have hnot := hleft.1
        rw [hslices] at hnot
        exact absurd hdedicated hnot
    · intro el hel r hr _ hforeign
      cases hgiven el hel r hr with
      | inl hown => exact absurd hown hforeign
      | inr hleft =>
        obtain ⟨_, b, hb, hnobody⟩ := hleft
        refine ⟨b, harq.rntiAllocated, ?_, ?_⟩
        · exact bind_eq_ok.mpr ⟨harq, hharq, bind_eq_ok.mpr ⟨b, hb, rfl⟩⟩
        · intro rnti hslice
          apply hnobody rnti
          rw [hsliceOf, hslices]
          exact hslice

theorem slicesFit_of_entries {slices : List (ℕ × SliceInfo)} {rbgNum : ℕ}
    (h : ∀ entry ∈ slices, (markedRbgs slices rbgNum entry.1).length ≤ entry.2.maxRbg) :
    SlicesFit slices rbgNum := fun _ _ hinfo => h _ (OrderedMap.mem_of_find hinfo)

theorem exactRadio_rates (rbgNum : ℕ) :
    PositiveRates (exactRadio rbgNum) (fun x => 0 < x) fun y => 0 < y := by
  constructor
  · exact zero_lt_one
  · intro y bytes hy
    change 0 < (1 - 1 / 99) * y + 1 / 99 * ((bytes : ℚ) * 1000)
    have hfactor : (0 : ℚ) < 1 - 1 / 99 := by norm_num
    positivity
  · intro mcs nprb hnprb
    change 8 ≤ 800 * nprb
    omega
  · intro bytes hbytes
    change 0 < (0 : ℚ) + bytes * 1000
    positivity
  · intro x bytes hx
    change 0 < x + (bytes : ℚ) * 1000
    positivity
  · intro x y hx hy
    exact decide_eq_true (div_pos hx hy)

/-- A slice with four dedicated RBGs, and users of it and of no slice that have data. -/
def fourDedicated : List NsPfEvent :=
  [.ueConfig 1 0, .ueConfig 2 0, .lcConfig 1 false [⟨3, .nonGbr, 4294967295, 1025⟩],
    .lcConfig 2 false [⟨3, .nonGbr, 0, 0⟩], .rlcBufferReq 1 3 ⟨1000, 0, 0⟩,
    .rlcBufferReq 2 3 ⟨1000, 0, 0⟩]

def afterFourDedicated : NsPfScheduler ℚ :=
  (NsPfScheduler.machine (exactRadio 6)).exec (.start true 6) fourDedicated

def newDataIn (s : NsPfScheduler ℚ) : List BuildData :=
  match newData (exactRadio 6) s [] with
  | .ok new => new
  | .error _ => []

theorem newDataIn_ok {s : NsPfScheduler ℚ} (h : (newData (exactRadio 6) s []).isOk = true) :
    newData (exactRadio 6) s [] = .ok (newDataIn s) := by
  unfold newDataIn
  cases hnew : newData (exactRadio 6) s [] with
  | ok new => rfl
  | error fault =>
    rw [hnew] at h
    cases h

theorem slices_isolated_fourDedicated :
    Isolated (exactRadio 6) afterFourDedicated [] (newDataIn afterFourDedicated) := by
  have hrun : (NsPfScheduler.machine (exactRadio 6)).Permits (.start true 6) fourDedicated := by
    decide +kernel
  exact slices_isolated (exactRadio_rates 6) hrun.reaches
    (slicesFit_of_entries (by decide +kernel)) (newDataIn_ok (by decide +kernel))

/-- With three RBGs less than none as shared the sum of the counts is one. -/
def wrappedShare : List NsPfEvent := fourDedicated ++ [.sliceInfo ⟨[1], [-3]⟩ .s]

def afterWrappedShare : NsPfScheduler ℚ :=
  (NsPfScheduler.machine (exactRadio 6)).exec (.start true 6) wrappedShare

/-- The first run gives the slice four RBGs where its maximum is one. -/
theorem slice_above_max :
    ¬ ∀ (radio : Radio ℚ) (rate avg : ℚ → Prop) (harqOn : Bool) (dlBandwidth : ℕ)
      (es : List NsPfEvent) (s : NsPfScheduler ℚ) (ffr : Ffr) (infos : List DlInfo)
      (new : List BuildData), PositiveRates radio rate avg →
      (NsPfScheduler.machine radio).Reaches (.start harqOn dlBandwidth) es s →
      newData { radio with toFfr := ffr } s infos = .ok new →
      Isolated { radio with toFfr := ffr } s infos new := by
  intro hall
  have hrun : (NsPfScheduler.machine (exactRadio 6)).Permits (.start true 6) wrappedShare := by
    decide +kernel
  have hisolated := hall (exactRadio 6) _ _ true 6 wrappedShare _ (openFfr 6) [] _
    (exactRadio_rates 6) hrun.reaches (newDataIn_ok (by decide +kernel))
  have hmax : OrderedMap.find afterWrappedShare.sliceInfoMap 1 =
      some ⟨4, 0, 18446744073709551613, 4, 1⟩ := by
    decide +kernel
  have hcap := hisolated.cap 1 _ hmax
  have habove : ¬ (builtRbgs ((newDataIn afterWrappedShare).filter fun el =>
      afterWrappedShare.sliceOf el.rnti = some 1)).length ≤ 1 := by
    decide +kernel
  exact habove hcap

end Trigger
end NetGymSim.Gma

import NetGymSim.Gma.HarqRoom
import NetGymSim.Gma.NsPfRuns

/-!
# The RBGs of a TTI are granted once

The two runs take RBGs that HARQ left free, each at most once, and the DCIs for new data
have just these. With room for the retransmissions all bitmaps of a TTI are therefore
disjoint. A retransmission without room is built although its feedback is stored.
-/

namespace NetGymSim.Gma
open NetGymSim.Lib
variable {R : Type}

def SameButScheduled (s s' : NsPfScheduler R) : Prop :=
  ∃ scheduled bearers,
    s' = { s with scheduledBytesPerLc := scheduled, sliceBearerTypeMap := bearers }

theorem SameButScheduled.refl (s : NsPfScheduler R) : SameButScheduled s s := ⟨_, _, rfl⟩

theorem SameButScheduled.trans {s s' s'' : NsPfScheduler R} (h : SameButScheduled s s')
    (h' : SameButScheduled s' s'') : SameButScheduled s s'' := by
  obtain ⟨_, _, rfl⟩ := h
  obtain ⟨scheduled, bearers, rfl⟩ := h'
  exact ⟨scheduled, bearers, rfl⟩

theorem refreshSlicePriority_bearers {radio : Radio R} {s s' : NsPfScheduler R}
    (h : s.refreshSlicePriority radio = .ok s') :
    ∃ bearers, s' = { s with sliceBearerTypeMap := bearers } := by
  unfold NsPfScheduler.refreshSlicePriority at h
  obtain ⟨bearers, _, h⟩ := bind_eq_ok.mp h
  exact ⟨bearers, (pure_eq_ok.mp h).symm⟩

theorem SameButScheduled.of_bearers {s s' : NsPfScheduler R}
    (h : ∃ bearers, s' = { s with sliceBearerTypeMap := bearers }) : SameButScheduled s s' := by
  obtain ⟨bearers, rfl⟩ := h
  exact ⟨s.scheduledBytesPerLc, bearers, rfl⟩

theorem considerChannel_sched (radio : Radio R) (rnti : ℕ) (flow : FlowPerf R) (rate rcqi : R)
    (channels : List ((ℕ × ℕ) × RlcBufferReq)) (pick : Pick R) :
    (channels.foldl (considerChannel radio rnti flow rate rcqi) pick).sched = pick.sched := by
  induction channels generalizing pick with
  | nil => rfl
  | cons entry rest ih =>
    rw [List.foldl_cons, ih]
    unfold considerChannel
    split
    · rfl
    · rfl

theorem considerUser_bearers {radio : Radio R} {rbgSize : ℕ} {rntiAllocated : List ℕ}
    {usage : ℕ → ℕ} {run i : ℕ} {info : RbgType × ℕ} {pick pick' : Pick R}
    {user : ℕ × FlowPerf R}
    (h : considerUser radio rbgSize rntiAllocated usage run i info pick user = .ok pick') :
    ∃ bearers, pick'.sched = { pick.sched with sliceBearerTypeMap := bearers } := by
  unfold considerUser at h
  dsimp only at h
  by_cases hadmits : sliceAdmits run info user.2.sliceId (usage user.2.sliceId)
      (pick.sched.maxRbgs user.2.sliceId) = true
  · rw [if_pos hadmits] at h
    obtain ⟨reached, _, h⟩ := bind_eq_ok.mp h
    cases reached with
    | none =>
      cases pure_eq_ok.mp h
      exact ⟨_, rfl⟩
    | some layers =>
      obtain ⟨s, hs, h⟩ := bind_eq_ok.mp h
      obtain ⟨lcActives, _, h⟩ := bind_eq_ok.mp h
      rw [← pure_eq_ok.mp h]
      by_cases hactive : 0 < lcActives
      · rw [if_pos hactive, considerChannel_sched]
        exact refreshSlicePriority_bearers hs
      · rw [if_neg hactive]
        exact refreshSlicePriority_bearers hs
  · rw [if_neg hadmits] at h
    cases pure_eq_ok.mp h
    exact ⟨_, rfl⟩

def pickUser (radio : Radio R) (rbgNum rbgSize : ℕ) (rntiAllocated : List ℕ) (run : ℕ)
    (a : Allocation R) (i : ℕ) : Except Fault (Pick R) :=
  a.sched.flowStatsDl.foldlM
    (considerUser radio rbgSize rntiAllocated a.sliceRbgUsageMap run i
      (getRbgSliceInfo a.sched.sliceInfoMap (rbgNum - 1 - i)))
    ⟨a.sched, radio.zero, none, radio.zero, (0, 0)⟩

theorem allocateRbg_spec {radio : Radio R} {rbgNum rbgSize : ℕ} {rntiAllocated : List ℕ}
    {run i : ℕ} {a a' : Allocation R}
    (h : allocateRbg radio rbgNum rbgSize rntiAllocated run a i = .ok a') :
    SameButScheduled a.sched a'.sched ∧
      (a.rbgMap[i]? = some true ∧ a' = a ∨ FreeRbg a.rbgMap i ∧ ∃ pick,
        pickUser radio rbgNum rbgSize rntiAllocated run a i = .ok pick ∧
        (pick.itMax = none ∧ a' = { a with sched := pick.sched } ∨ ∃ rnti flow,
          pick.itMax = some (rnti, flow) ∧
          a'.rbgMap = a.rbgMap.set i true ∧
          a'.allocationMap = OrderedMap.push (· < ·) rnti i a.allocationMap ∧
          a'.sliceRbgUsageMap = Function.update a.sliceRbgUsageMap flow.sliceId
            (add32 (a.sliceRbgUsageMap flow.sliceId) 1))) := by
  unfold allocateRbg at h
  obtain ⟨taken, hat, h⟩ := bind_eq_ok.mp h
  have hi := vecAt_ok hat
  cases taken with
  | true =>
    cases pure_eq_ok.mp h
    exact ⟨.refl _, .inl ⟨hi, rfl⟩⟩
  | false =>
    obtain ⟨pick, hpick, h⟩ := bind_eq_ok.mp h
    have hsame : SameButScheduled a.sched pick.sched :=
      foldlM_inv (P := fun q _ => SameButScheduled a.sched q.sched)
        (fun _ _ _ _ hq hstep => hq.trans (.of_bearers (considerUser_bearers hstep)))
        (.refl _) hpick
    cases hmax : pick.itMax with
    | none =>
      rw [hmax] at h
      cases pure_eq_ok.mp h
      exact ⟨hsame, .inr ⟨hi, pick, hpick, .inl ⟨hmax, rfl⟩⟩⟩
    | some user =>
      rw [hmax] at h
      dsimp only [Allocation.grant] at h
      obtain ⟨s, hs, h⟩ := bind_eq_ok.mp h
      have hstep : SameButScheduled pick.sched s :=
        SameButScheduled.trans ⟨_, _, rfl⟩ (.of_bearers (refreshSlicePriority_bearers hs))
      rw [← pure_eq_ok.mp h]
      exact ⟨hsame.trans hstep,
        .inr ⟨hi, pick, hpick, .inr ⟨user.1, user.2, hmax, rfl, rfl, rfl⟩⟩⟩

def Allocation.given (a : Allocation R) : List ℕ := a.allocationMap.flatMap Prod.snd

structure GivenOnce (rbgNum : ℕ) (rbgMap : List Bool) (a : Allocation R) : Prop where
  nodup : a.given.Nodup
  taken : ∀ r ∈ a.given, a.rbgMap[r]? = some true
  inBand : ∀ r ∈ a.given, r < rbgNum
  free : ∀ r ∈ a.given, ¬ rbgMap[r]? = some true
  kept : ∀ r : ℕ, rbgMap[r]? = some true → a.rbgMap[r]? = some true

theorem GivenOnce.allocateRbg {radio : Radio R} {rbgNum rbgSize : ℕ} {rntiAllocated : List ℕ}
    {run i : ℕ} {a a' : Allocation R} {rbgMap : List Bool} (hg : GivenOnce rbgNum rbgMap a)
    (hi : i < rbgNum) (h : allocateRbg radio rbgNum rbgSize rntiAllocated run a i = .ok a') :
    GivenOnce rbgNum rbgMap a' := by
  obtain ⟨_, ⟨_, rfl⟩ | ⟨hfree, pick, _, ⟨_, rfl⟩ | ⟨rnti, flow, _, hmap, halloc, _⟩⟩⟩ :=
    allocateRbg_spec h
  · exact hg
  · exact ⟨hg.nodup, hg.taken, hg.inBand, hg.free, hg.kept⟩
  · have hperm : a'.given.Perm (i :: a.given) := by
      rw [Allocation.given, halloc]
      exact OrderedMap.flatMap_push rnti i a.allocationMap
    have hmem : ∀ r, r ∈ a'.given ↔ r = i ∨ r ∈ a.given := fun r => by
      rw [hperm.mem_iff, List.mem_cons]
    have hnot : ¬ a.rbgMap[i]? = some true := by
      rw [hfree]
      simp
    have hset : ∀ r : ℕ, a.rbgMap[r]? = some true → a'.rbgMap[r]? = some true := by
      intro r hr
      have hne : i ≠ r := fun heq => hnot (heq ▸ hr)
      rw [hmap, List.getElem?_set_ne hne]
      exact hr
    constructor
    · refine hperm.nodup_iff.mpr (List.nodup_cons.mpr ⟨?_, hg.nodup⟩)
      intro hin
      exact hnot (hg.taken i hin)
    · intro r hr
      cases (hmem r).mp hr with
      | inl heq =>
        obtain ⟨hlt, _⟩ := List.getElem?_eq_some_iff.mp hfree
        rw [heq, hmap, List.getElem?_set_self hlt]
      | inr hold => exact hset r (hg.taken r hold)
    · intro r hr
      cases (hmem r).mp hr with
      | inl heq => exact heq ▸ hi
      | inr hold => exact hg.inBand r hold
    · intro r hr
      cases (hmem r).mp hr with
      | inl heq => exact fun ht => hnot (hg.kept i (heq ▸ ht))
      | inr hold => exact hg.free r hold
    · intro r hr
      exact hset r (hg.kept r hr)

theorem allocationRun_invariant {radio : Radio R} {rbgNum rbgSize : ℕ} {rntiAllocated : List ℕ}
    {run : ℕ} {a a' : Allocation R} {P : Allocation R → Prop}
    (hstep : ∀ b i b', i < rbgNum → P b →
      allocateRbg radio rbgNum rbgSize rntiAllocated run b i = .ok b' → P b')
    (ha : P a) (h : allocationRun radio rbgNum rbgSize rntiAllocated run a = .ok a') : P a' := by
  have hall := foldlM_inv (P := fun b rest => (∀ i ∈ rest, i < rbgNum) ∧ P b)
    (fun b i rest b' hb hturn => ⟨fun j hj => hb.1 j (List.mem_cons_of_mem _ hj),
      hstep b i b' (hb.1 i List.mem_cons_self) hb.2 hturn⟩)
    ⟨fun i hi => List.mem_range.mp hi, ha⟩ h
  exact hall.2

theorem allocate_given {radio : Radio R} {rbgNum rbgSize : ℕ} {rntiAllocated : List ℕ}
    {s : NsPfScheduler R} {rbgMap : List Bool} {a : Allocation R}
    (h : allocate radio rbgNum rbgSize rntiAllocated s rbgMap = .ok a) :
    GivenOnce rbgNum rbgMap a ∧ SameButScheduled s a.sched := by
  unfold allocate at h
  obtain ⟨first, hfirst, hsecond⟩ := bind_eq_ok.mp h
  have hstep : ∀ {run : ℕ} (b : Allocation R) (i : ℕ) (b' : Allocation R), i < rbgNum →
      GivenOnce rbgNum rbgMap b ∧ SameButScheduled s b.sched →
      allocateRbg radio rbgNum rbgSize rntiAllocated run b i = .ok b' →
      GivenOnce rbgNum rbgMap b' ∧ SameButScheduled s b'.sched := fun b i b' hi hb hturn =>
    ⟨hb.1.allocateRbg hi hturn, hb.2.trans (allocateRbg_spec hturn).1⟩
  apply allocationRun_invariant hstep _ hsecond
  apply allocationRun_invariant hstep _ hfirst
  refine ⟨⟨List.nodup_nil, ?_, ?_, ?_, fun _ hr => hr⟩, ⟨_, _, rfl⟩⟩
  all_goals exact fun _ hr => (List.not_mem_nil hr).elim

theorem updateHarqProcessId_same {s s' : NsPfScheduler R} {rnti id : ℕ}
    (h : s.updateHarqProcessId rnti = .ok (id, s')) : SameUsers s s' := by
  unfold NsPfScheduler.updateHarqProcessId at h
  cases hon : s.harqOn with
  | false =>
    rw [hon] at h
    cases pure_eq_ok.mp h
    exact .refl _
  | true =>
    rw [hon] at h
    obtain ⟨_, _, h⟩ := bind_eq_ok.mp h
    obtain ⟨_, _, h⟩ := bind_eq_ok.mp h
    obtain ⟨_, _, h⟩ := bind_eq_ok.mp h
    obtain ⟨st, _, h⟩ := bind_eq_ok.mp h
    by_cases hst : st = 0
    · rw [if_pos hst] at h
      cases pure_eq_ok.mp h
      exact ⟨rfl, rfl, rfl, rfl⟩
    · rw [if_neg hst] at h
      cases h

theorem buildPdus_same {s : NsPfScheduler R} {rnti lcid harqProcess lcActives nLayer : ℕ}
    {tbsSize : List ℕ} {r : NsPfScheduler R × List RlcPdu}
    (h : buildPdus s rnti lcid harqProcess lcActives nLayer tbsSize = .ok r) :
    SameUsers s r.1 := by
  apply foldlM_inv (P := fun q _ => SameUsers s q.1) _ (SameUsers.refl s) h
  intro q j _ q' hq hstep
  obtain ⟨tbs, _, hstep⟩ := bind_eq_ok.mp hstep
  dsimp only at hstep
  by_cases hon : (q.1.updateDlRlcBufferInfo rnti lcid (tbs / lcActives)).harqOn = true
  · rw [if_pos hon] at hstep
    obtain ⟨_, _, hstep⟩ := bind_eq_ok.mp hstep
    obtain ⟨_, _, hstep⟩ := bind_eq_ok.mp hstep
    obtain ⟨_, _, hstep⟩ := bind_eq_ok.mp hstep
    rw [← pure_eq_ok.mp hstep]
    exact hq.trans ⟨rfl, rfl, rfl, rfl⟩
  · rw [if_neg hon] at hstep
    rw [← pure_eq_ok.mp hstep]
    exact hq.trans ⟨rfl, rfl, rfl, rfl⟩

theorem storeDci_same {s s' : NsPfScheduler R} {rnti : ℕ} {dci : DlDci}
    (h : s.storeDci rnti dci = .ok s') : SameUsers s s' := by
  unfold NsPfScheduler.storeDci at h
  by_cases hon : s.harqOn = true
  · rw [if_pos hon] at h
    obtain ⟨_, _, h⟩ := bind_eq_ok.mp h
    obtain ⟨_, _, h⟩ := bind_eq_ok.mp h
    obtain ⟨_, _, h⟩ := bind_eq_ok.mp h
    obtain ⟨_, _, h⟩ := bind_eq_ok.mp h
    cases pure_eq_ok.mp h
    exact ⟨rfl, rfl, rfl, rfl⟩
  · rw [if_neg hon] at h
    cases pure_eq_ok.mp h
    exact .refl _

theorem buildData_spec {radio : Radio R} {rbgSize : ℕ} {sliceAllocationMap : List (ℕ × List ℕ)}
    {s : NsPfScheduler R} {rnti : ℕ} {rbgs : List ℕ} {r : NsPfScheduler R × BuildData}
    (h : buildData radio rbgSize sliceAllocationMap s rnti rbgs = .ok r) :
    SameUsers s r.1 ∧ r.2.rnti = rnti ∧ r.2.dci.rbBitmap = rbgMask rbgs := by
  unfold buildData at h
  obtain ⟨⟨harqProcess, s₁⟩, hid, h⟩ := bind_eq_ok.mp h
  obtain ⟨_, _, h⟩ := bind_eq_ok.mp h
  obtain ⟨_, _, h⟩ := bind_eq_ok.mp h
  obtain ⟨_, _, h⟩ := bind_eq_ok.mp h
  obtain ⟨_, _, h⟩ := bind_eq_ok.mp h
  obtain ⟨⟨s₂, pdus⟩, hpdus, h⟩ := bind_eq_ok.mp h
  obtain ⟨s₃, hstore, h⟩ := bind_eq_ok.mp h
  have h₁ := updateHarqProcessId_same hid
  have h₂ : SameUsers s₁ s₂ := by
    apply foldlM_inv (P := fun q _ => SameUsers s₁ q.1) _ (SameUsers.refl s₁) hpdus
    intro q entry _ q' hq hstep
    obtain ⟨built, hbuilt, hstep⟩ := bind_eq_ok.mp hstep
    rw [← pure_eq_ok.mp hstep]
    exact hq.trans (buildPdus_same hbuilt)
  rw [← pure_eq_ok.mp h]
  refine ⟨((h₁.trans h₂).trans (storeDci_same hstore)).trans ⟨rfl, rfl, rfl, ?_⟩, rfl, rfl⟩
  dsimp only
  apply OrderedMap.map_modify
  intro v
  rfl

theorem buildDataList_spec {radio : Radio R} {rbgSize : ℕ}
    {sliceAllocationMap allocationMap : List (ℕ × List ℕ)} {s : NsPfScheduler R}
    {r : NsPfScheduler R × List BuildData}
    (h : buildDataList radio rbgSize sliceAllocationMap allocationMap s = .ok r) :
    SameUsers s r.1 ∧ r.2.map (fun el => (el.rnti, el.dci.rbBitmap)) =
      allocationMap.map fun entry => (entry.1, rbgMask entry.2) := by
  have hall := foldlM_inv (P := fun q rest => SameUsers s q.1 ∧
      q.2.map (fun el => (el.rnti, el.dci.rbBitmap)) ++
        rest.map (fun entry : ℕ × List ℕ => (entry.1, rbgMask entry.2)) =
      allocationMap.map fun entry => (entry.1, rbgMask entry.2)) ?_
    ⟨SameUsers.refl s, rfl⟩ h
  · rw [List.map_nil, List.append_nil] at hall
    exact hall
  · intro q entry rest q' hq hstep
    obtain ⟨built, hbuilt, hstep⟩ := bind_eq_ok.mp hstep
    obtain ⟨hsame, hrnti, hbitmap⟩ := buildData_spec hbuilt
    rw [← pure_eq_ok.mp hstep]
    refine ⟨hq.1.trans hsame, ?_⟩
    rw [← hq.2]
    simp [hrnti, hbitmap]

theorem resetTtiStats_same (s : NsPfScheduler R) : SameUsers s s.resetTtiStats :=
  ⟨rfl, rfl, rfl, by
    rw [NsPfScheduler.resetTtiStats, List.map_map]
    rfl⟩

theorem scheduleNewData_spec {radio : Radio R} {rbgNum rbgSize : ℕ} {harq : HarqPass R}
    {r : NsPfScheduler R × List BuildData} (h : scheduleNewData radio rbgNum rbgSize harq = .ok r) :
    ∃ a s, allocate radio rbgNum rbgSize harq.rntiAllocated harq.sched harq.rbgMap = .ok a ∧
      SameUsers harq.sched s ∧ r.1 = s.updateStats radio ∧
      r.2.map (fun el => (el.rnti, el.dci.rbBitmap)) =
        a.allocationMap.map fun entry => (entry.1, rbgMask entry.2) := by
  unfold scheduleNewData at h
  obtain ⟨a, ha, h⟩ := bind_eq_ok.mp h
  obtain ⟨⟨s, build⟩, hbuild, h⟩ := bind_eq_ok.mp h
  obtain ⟨hsame, hlist⟩ := buildDataList_spec hbuild
  rw [← pure_eq_ok.mp h]
  refine ⟨a, s, ha, ?_, rfl, hlist⟩
  obtain ⟨scheduled, bearers, hs⟩ := (allocate_given ha).2
  have hstart : SameUsers harq.sched a.sched := by
    rw [hs]
    exact ⟨rfl, rfl, rfl, rfl⟩
  exact (hstart.trans (resetTtiStats_same a.sched)).trans hsame

theorem GivenOnce.mem_mask {rbgNum : ℕ} (hnum : rbgNum ≤ 32) {rbgMap : List Bool}
    {a : Allocation R} (ha : GivenOnce rbgNum rbgMap a) {entry : ℕ × List ℕ}
    (hentry : entry ∈ a.allocationMap) (r : ℕ) :
    r ∈ dciRbgs (rbgMask entry.2) ↔ r ∈ entry.2 := by
  apply mem_dciRbgs_rbgMask
  · exact (List.nodup_flatMap.mp ha.nodup).1 entry hentry
  · intro x hx
    have hlt := ha.inBand x (List.mem_flatMap_of_mem hentry hx)
    omega

theorem Granted.newData {rbgMap : List Bool} {build new : List BuildData}
    (hg : Granted rbgMap build) {rbgNum : ℕ} (hnum : rbgNum ≤ 32) {a : Allocation R}
    (ha : GivenOnce rbgNum rbgMap a)
    (hnew : new.map (fun el => (el.rnti, el.dci.rbBitmap)) =
      a.allocationMap.map fun entry => (entry.1, rbgMask entry.2)) :
    Granted a.rbgMap (build ++ new) := by
  have hmask : ∀ entry ∈ a.allocationMap, ∀ r, r ∈ dciRbgs (rbgMask entry.2) ↔ r ∈ entry.2 :=
    fun _ hentry => ha.mem_mask hnum hentry
  have hbuilt : builtRbgs new = a.allocationMap.flatMap fun entry => dciRbgs (rbgMask entry.2) := by
    have hmap := congrArg (List.flatMap fun p : ℕ × BitVec 32 => dciRbgs p.2) hnew
    rwa [List.flatMap_map, List.flatMap_map] at hmap
  have hgiven : ∀ r, r ∈ builtRbgs new → r ∈ a.given := by
    intro r hr
    rw [hbuilt] at hr
    obtain ⟨entry, hentry, hr⟩ := List.mem_flatMap.mp hr
    exact List.mem_flatMap_of_mem hentry ((hmask entry hentry r).mp hr)
  have hsplit : builtRbgs (build ++ new) = builtRbgs build ++ builtRbgs new :=
    List.flatMap_append
  constructor
  · rw [hsplit]
    refine List.nodup_append'.mpr ⟨hg.nodup, ?_, ?_⟩
    · rw [hbuilt]
      refine List.nodup_flatMap.mpr ⟨fun entry _ => dciRbgs_nodup _, ?_⟩
      refine (List.nodup_flatMap.mp ha.nodup).2.imp_of_mem ?_
      intro x y hx hy hdisj r hrx hry
      exact hdisj ((hmask x hx r).mp hrx) ((hmask y hy r).mp hry)
    · intro r hold hr
      exact ha.free r (hgiven r hr) (hg.taken r hold)
  · intro r hr
    rw [hsplit, List.mem_append] at hr
    cases hr with
    | inl hold => exact ha.kept r (hg.taken r hold)
    | inr hr => exact ha.taken r (hgiven r hr)

def NsPfScheduler.rbgNum (s : NsPfScheduler R) : ℕ :=
  s.dlBandwidth / (getRbgSize s.dlBandwidth).getD 1

def RetxRoom (radio : Radio R) (s : NsPfScheduler R) (dlInfoList : List DlInfo) : Prop :=
  HasRoom s.rbgNum radio.availableDlRbg
    (retxDue s.dlHarqProcessesDciBuffer [] (s.feedback dlInfoList))

theorem rbgNum_le {bandwidth rbgSize : ℕ} (h : getRbgSize bandwidth = some rbgSize) :
    bandwidth / rbgSize ≤ 32 := by
  unfold getRbgSize at h
  split_ifs at h <;> cases h <;> omega

theorem refreshTimers_same {s : NsPfScheduler R} {rnti : ℕ} {timers : List ℕ}
    {r : List ℕ × NsPfScheduler R} (h : s.refreshTimers rnti timers = .ok r) :
    ∃ status, r.2 = { s with dlHarqProcessesStatus := status } := by
  apply foldlM_inv (P := fun q _ => ∃ status, q.2 = { s with dlHarqProcessesStatus := status }) _
    ⟨s.dlHarqProcessesStatus, rfl⟩ h
  rintro q i _ q' ⟨status, hq⟩ hstep
  obtain ⟨timer, _, hstep⟩ := bind_eq_ok.mp hstep
  by_cases ht : timer = 11
  · rw [if_pos ht] at hstep
    obtain ⟨_, _, hstep⟩ := bind_eq_ok.mp hstep
    obtain ⟨_, _, hstep⟩ := bind_eq_ok.mp hstep
    rw [← pure_eq_ok.mp hstep, hq]
    exact ⟨_, rfl⟩
  · rw [if_neg ht] at hstep
    rw [← pure_eq_ok.mp hstep, hq]
    exact ⟨_, rfl⟩

theorem refreshHarqProcesses_same {s s' : NsPfScheduler R}
    (h : s.refreshHarqProcesses = .ok s') :
    ∃ status timers,
      s' = { s with dlHarqProcessesStatus := status, dlHarqProcessesTimer := timers } := by
  unfold NsPfScheduler.refreshHarqProcesses at h
  obtain ⟨⟨entries, s₁⟩, hfold, h⟩ := bind_eq_ok.mp h
  have hs : ∃ status, s₁ = { s with dlHarqProcessesStatus := status } := by
    apply foldlM_inv
      (P := fun (q : List (ℕ × List ℕ) × NsPfScheduler R) _ =>
        ∃ status, q.2 = { s with dlHarqProcessesStatus := status }) _
      ⟨s.dlHarqProcessesStatus, rfl⟩ hfold
    rintro q entry _ q' ⟨status, hq⟩ hstep
    obtain ⟨⟨timers, t⟩, ht, hstep⟩ := bind_eq_ok.mp hstep
    obtain ⟨status', ht'⟩ := refreshTimers_same ht
    rw [← pure_eq_ok.mp hstep]
    refine ⟨status', ?_⟩
    have ht : t = { q.2 with dlHarqProcessesStatus := status' } := ht'
    rw [ht, hq]
  obtain ⟨status, hs⟩ := hs
  rw [← pure_eq_ok.mp h, hs]
  exact ⟨status, entries, rfl⟩

theorem processDlHarq_spec {radio : Radio R} {rbgNum : ℕ} (hnum : rbgNum ≤ 32)
    {s : NsPfScheduler R} {dlInfoList : List DlInfo} {p : HarqPass R}
    (h : processDlHarq radio rbgNum s dlInfoList = .ok p) :
    let due := retxDue s.dlHarqProcessesDciBuffer [] (s.feedback dlInfoList)
    (HasRoom rbgNum radio.availableDlRbg due ↔ p.sched.dlInfoListBuffered = []) ∧
      (p.sched.dlInfoListBuffered = [] → Granted p.rbgMap p.buildDataList) ∧
      ∀ info ∈ p.sched.dlInfoListBuffered, ∃ el ∈ p.buildDataList, Retransmits el info := by
  intro due
  unfold processDlHarq at h
  obtain ⟨s₁, hs₁, hpass⟩ := bind_eq_ok.mp h
  obtain ⟨status, timers, rfl⟩ := refreshHarqProcesses_same hs₁
  obtain ⟨q, hq, hp⟩ := bind_eq_ok.mp hpass
  cases pure_eq_ok.mp hp
  have hdcis : ∀ rnti ∉ ([] : List ℕ),
      s.dlHarqProcessesDciBuffer rnti = s.dlHarqProcessesDciBuffer rnti := fun _ _ => rfl
  obtain ⟨hroom, hgrant⟩ := harqPass_spec hnum hq hdcis (Granted.nil _) rfl
  have hstored := (harqPass_stored hq fun _ hi => (List.not_mem_nil hi).elim).2
  exact ⟨hroom, hgrant, hstored⟩

def GrantedOnce (stored : List DlInfo) (build : List BuildData) : Prop :=
  build.Pairwise (fun a b => a.dci.rbBitmap &&& b.dci.rbBitmap = 0#32) ∧
    ∀ info ∈ stored, ∀ el ∈ build, ¬ Retransmits el info

instance (stored : List DlInfo) (build : List BuildData) : Decidable (GrantedOnce stored build) :=
  inferInstanceAs (Decidable (
    build.Pairwise (fun a b => a.dci.rbBitmap &&& b.dci.rbBitmap = 0#32) ∧
      ∀ info ∈ stored, ∀ el ∈ build, ¬ Retransmits el info))

theorem grantedOnce_iff_room {radio : Radio R} {s s' : NsPfScheduler R} {dlInfoList : List DlInfo}
    {build : List BuildData}
    (h : doSchedDlTriggerReq radio s dlInfoList = .ok (s', build)) :
    GrantedOnce s'.dlInfoListBuffered build ↔ RetxRoom radio s dlInfoList := by
  unfold doSchedDlTriggerReq at h
  dsimp only at h
  cases hsize : getRbgSize s.refreshDlCqiMaps.dlBandwidth with
  | none =>
    rw [hsize] at h
    cases h
  | some rbgSize =>
    rw [hsize] at h
    obtain ⟨harq, hharq, h⟩ := bind_eq_ok.mp h
    have hnum := rbgNum_le hsize
    obtain ⟨hroom, hgrant, hstored⟩ := processDlHarq_spec hnum hharq
    have hcell : RetxRoom radio s dlInfoList ↔ harq.sched.dlInfoListBuffered = [] := by
      have hsize' : getRbgSize s.dlBandwidth = some rbgSize := hsize
      rw [← hroom, RetxRoom, NsPfScheduler.rbgNum, hsize']
      exact Iff.rfl
    rw [hcell]
    -- what the rest of the trigger adds to the build list and leaves of the feedback
    have hrest : ∃ new, build = harq.buildDataList ++ new ∧
        s'.dlInfoListBuffered = harq.sched.dlInfoListBuffered ∧
        (Granted harq.rbgMap harq.buildDataList → ∃ rbgMap, Granted rbgMap build) := by
      by_cases hfull : harq.rbgAllocatedNum = s.refreshDlCqiMaps.dlBandwidth / rbgSize
      · rw [if_pos hfull] at h
        cases pure_eq_ok.mp h
        exact ⟨[], (List.append_nil _).symm, rfl, fun hg => ⟨_, hg⟩⟩
      · rw [if_neg hfull] at h
        obtain ⟨⟨t, new⟩, hnew, h⟩ := bind_eq_ok.mp h
        obtain ⟨a, u, ha, hsame, hu, hlist⟩ := scheduleNewData_spec hnew
        cases pure_eq_ok.mp h
        have hbuffered := congrArg NsPfScheduler.dlInfoListBuffered hu
        exact ⟨new, rfl, hbuffered.trans hsame.buffered, fun hg =>
          ⟨a.rbgMap, hg.newData hnum (allocate_given ha).1 hlist⟩⟩
    obtain ⟨new, hbuild, hbuffered, hgranted⟩ := hrest
    constructor
    · rintro ⟨_, hnone⟩
      by_contra hne
      obtain ⟨info, hinfo⟩ := List.exists_mem_of_ne_nil _ hne
      obtain ⟨el, hel, hretx⟩ := hstored info hinfo
      exact hnone info (hbuffered ▸ hinfo) el (hbuild ▸ List.mem_append_left _ hel) hretx
    · intro hnil
      obtain ⟨rbgMap, hg⟩ := hgranted (hgrant hnil)
      refine ⟨hg.disjoint, ?_⟩
      rw [hbuffered, hnil]
      exact fun _ hi => (List.not_mem_nil hi).elim

def GrantedOnceIn (radio : Radio R) (s : NsPfScheduler R) (dlInfoList : List DlInfo) : Prop :=
  match doSchedDlTriggerReq radio s dlInfoList with
  | .ok (s', build) => GrantedOnce s'.dlInfoListBuffered build
  | .error _ => True

instance (radio : Radio R) (s : NsPfScheduler R) (dlInfoList : List DlInfo) :
    Decidable (GrantedOnceIn radio s dlInfoList) :=
  match h : doSchedDlTriggerReq radio s dlInfoList with
  | .ok (s', build) =>
      decidable_of_iff (GrantedOnce s'.dlInfoListBuffered build) (by rw [GrantedOnceIn, h])
  | .error _ => isTrue (by rw [GrantedOnceIn, h]; trivial)

/-- In every state and for every feedback the RBGs of a TTI are granted once, and what is built is
not stored, just when there is room for the retransmissions. -/
theorem granted_once_iff {radio : Radio R} {s : NsPfScheduler R} {dlInfoList : List DlInfo}
    (hok : (doSchedDlTriggerReq radio s dlInfoList).isOk = true) :
    GrantedOnceIn radio s dlInfoList ↔ RetxRoom radio s dlInfoList := by
  unfold GrantedOnceIn
  cases htrigger : doSchedDlTriggerReq radio s dlInfoList with
  | error e =>
    rw [htrigger] at hok
    cases hok
  | ok r => exact grantedOnce_iff_room htrigger

def wholeBandTwice : List NsPfEvent :=
  [.ueConfig 1 0, .ueConfig 2 0, .lcConfig 1 false [⟨3, .nonGbr, 0, 0⟩],
    .lcConfig 2 false [⟨3, .nonGbr, 0, 0⟩], .rlcBufferReq 1 3 ⟨1000, 0, 0⟩,
    .trigger (openFfr 6) [], .rlcBufferReq 1 3 ⟨0, 0, 0⟩, .rlcBufferReq 2 3 ⟨1000, 0, 0⟩,
    .trigger (openFfr 6) []]

def bothLost : List DlInfo := [⟨1, 1, [.nack]⟩, ⟨2, 1, [.nack]⟩]

def afterWholeBandTwice : NsPfScheduler ℚ :=
  (NsPfScheduler.machine (exactRadio 6)).exec (.start true 6) wholeBandTwice

theorem granted_once_bothLost :
    GrantedOnceIn (exactRadio 6) afterWholeBandTwice bothLost ↔
      RetxRoom (exactRadio 6) afterWholeBandTwice bothLost :=
  granted_once_iff (by decide +kernel)

/-- Both retransmissions are built with the whole band, and the second one is stored, too. -/
theorem band_granted_twice :
    ¬ ∀ (radio : Radio ℚ) (harqOn : Bool) (dlBandwidth : ℕ) (es : List NsPfEvent)
      (s : NsPfScheduler ℚ) (dlInfoList : List DlInfo),
      (NsPfScheduler.machine radio).Reaches (.start harqOn dlBandwidth) es s →
      GrantedOnceIn radio s dlInfoList := by
  intro hall
  have hrun : (NsPfScheduler.machine (exactRadio 6)).Permits (.start true 6) wholeBandTwice := by
    decide +kernel
  have hgranted := hall (exactRadio 6) true 6 wholeBandTwice _ bothLost hrun.reaches
  have hnot : ¬ GrantedOnceIn (exactRadio 6) afterWholeBandTwice bothLost := by
    decide +kernel
  exact hnot hgranted

end NetGymSim.Gma

import Mathlib.Algebra.Order.Ring.Nat
import NetGymSim.Gma.TtiGrants

/-!
# The users of the slices

A user is in the slice its statistics name, and no trigger moves it to another one. The
statistics are in the order of the RNTIs and every average in them is one a rate can be
divided by, in each state a run reaches. Of the doubles only this is used, that the metric
of a user with a rate beats the value the search for the best user starts from.
-/

namespace NetGymSim.Gma
open NetGymSim.Lib
variable {R : Type}

structure PositiveRates (radio : Radio R) (rate avg : R → Prop) : Prop where
  one : avg radio.one
  average : ∀ y bytes, avg y → avg (radio.average y bytes)
  tbSize : ∀ mcs nprb, 0 < nprb → 8 ≤ radio.getDlTbSizeFromMcs mcs nprb
  addRate_zero : ∀ bytes, 0 < bytes → rate (radio.addRate radio.zero bytes)
  addRate : ∀ x bytes, rate x → rate (radio.addRate x bytes)
  slicedRcqi : ∀ x y, rate x → avg y → radio.gt (radio.slicedRcqi x y) radio.zero = true

theorem PositiveRates.withFfr {radio : Radio R} {rate avg : R → Prop}
    (h : PositiveRates radio rate avg) (ffr : Ffr) :
    PositiveRates { radio with toFfr := ffr } rate avg :=
  ⟨h.one, h.average, h.tbSize, h.addRate_zero, h.addRate, h.slicedRcqi⟩

def NsPfScheduler.sliceOf (s : NsPfScheduler R) (rnti : ℕ) : Option ℕ :=
  (OrderedMap.find s.flowStatsDl rnti).map (·.sliceId)

def userView (user : ℕ × FlowPerf R) : ℕ × ℕ × R :=
  (user.1, user.2.sliceId, user.2.lastAveragedSlicedThroughput)

theorem sliceOf_of_view {s s' : NsPfScheduler R}
    (h : s'.flowStatsDl.map userView = s.flowStatsDl.map userView) (rnti : ℕ) :
    s'.sliceOf rnti = s.sliceOf rnti := by
  have hview : ∀ t : NsPfScheduler R,
      t.sliceOf rnti = (OrderedMap.find (t.flowStatsDl.map userView) rnti).map Prod.fst := by
    intro t
    have hfind := OrderedMap.find_map
      (fun flow : FlowPerf R => (flow.sliceId, flow.lastAveragedSlicedThroughput))
      t.flowStatsDl rnti
    rw [NsPfScheduler.sliceOf]
    unfold userView
    rw [hfind, Option.map_map]
    rfl
  rw [hview, hview, h]

structure Sane (avg : R → Prop) (s : NsPfScheduler R) : Prop where
  sorted : OrderedMap.Sorted s.flowStatsDl
  averages : ∀ user ∈ s.flowStatsDl, avg user.2.lastAveragedSlicedThroughput
  txModes : ∀ rnti txMode, s.uesTxMode rnti = some txMode → txMode ≤ 6

variable {radio : Radio R} {rate avg : R → Prop} {s s' : NsPfScheduler R}

theorem Sane.of_view (hs : Sane avg s)
    (husers : s'.flowStatsDl.map userView = s.flowStatsDl.map userView)
    (htxModes : s'.uesTxMode = s.uesTxMode) : Sane avg s' := by
  constructor
  · have hkeys := congrArg (List.map Prod.fst) husers
    rw [List.map_map, List.map_map] at hkeys
    have hkeys : s'.flowStatsDl.map Prod.fst = s.flowStatsDl.map Prod.fst := hkeys
    rw [OrderedMap.Sorted, hkeys]
    exact hs.sorted
  · intro user huser
    have hview : userView user ∈ s.flowStatsDl.map userView :=
      husers ▸ List.mem_map_of_mem huser
    obtain ⟨user', huser', heq⟩ := List.mem_map.mp hview
    have havg : user'.2.lastAveragedSlicedThroughput = user.2.lastAveragedSlicedThroughput :=
      congrArg (fun view => view.2.2) heq
    rw [← havg]
    exact hs.averages user' huser'
  · rw [htxModes]
    exact hs.txModes

theorem Sane.same (hs : Sane avg s) (h : SameUsers s s') : Sane avg s' :=
  hs.of_view h.users h.txModes

theorem Sane.updateStats (hr : PositiveRates radio rate avg) (hs : Sane avg s) :
    Sane avg (s.updateStats radio) := by
  constructor
  · have hkeys : (s.updateStats radio).flowStatsDl.map Prod.fst =
        s.flowStatsDl.map Prod.fst := by
      rw [NsPfScheduler.updateStats, List.map_map]
      rfl
    rw [OrderedMap.Sorted, hkeys]
    exact hs.sorted
  · intro user huser
    obtain ⟨user', huser', rfl⟩ := List.mem_map.mp huser
    exact hr.average _ _ (hs.averages user' huser')
  · exact hs.txModes

theorem processDlHarq_same {rbgNum : ℕ} {infos : List DlInfo} {p : HarqPass R}
    (h : processDlHarq radio rbgNum s infos = .ok p) :
    p.sched.flowStatsDl.map userView = s.flowStatsDl.map userView ∧
      p.sched.uesTxMode = s.uesTxMode ∧ p.sched.sliceInfoMap = s.sliceInfoMap := by
  unfold processDlHarq at h
  obtain ⟨s₁, hs₁, h⟩ := bind_eq_ok.mp h
  obtain ⟨status, timers, rfl⟩ := refreshHarqProcesses_same hs₁
  obtain ⟨q, hq, h⟩ := bind_eq_ok.mp h
  have hsame : SameUsers s q.sched := by
    apply foldlM_inv (P := fun q _ => SameUsers s q.sched) _ ⟨rfl, rfl, rfl, rfl⟩ hq
    intro p info _ p' hp hturn
    obtain ⟨_, hi⟩ | ⟨_, dci, _, ⟨_, hi⟩ | ⟨_, place, el, hserved⟩⟩ := harqTurn_spec hturn
    · exact hp.trans hi.same
    · exact hp.trans hi.same
    · exact hp.trans hserved.same
  rw [← pure_eq_ok.mp h]
  exact ⟨hsame.users, hsame.txModes, hsame.slices⟩

theorem Sane.trigger (hr : PositiveRates radio rate avg) (hs : Sane avg s)
    {infos : List DlInfo} {r : NsPfScheduler R × List BuildData}
    (h : doSchedDlTriggerReq radio s infos = .ok r) : Sane avg r.1 := by
  unfold doSchedDlTriggerReq at h
  dsimp only at h
  cases hsize : getRbgSize s.refreshDlCqiMaps.dlBandwidth with
  | none =>
    rw [hsize] at h
    cases h
  | some rbgSize =>
    rw [hsize] at h
    obtain ⟨harq, hharq, h⟩ := bind_eq_ok.mp h
    obtain ⟨husers, htxModes, _⟩ := processDlHarq_same hharq
    have hsane : Sane avg harq.sched := hs.of_view husers htxModes
    by_cases hfull : harq.rbgAllocatedNum = s.refreshDlCqiMaps.dlBandwidth / rbgSize
    · rw [if_pos hfull] at h
      rw [← pure_eq_ok.mp h]
      exact hsane
    · rw [if_neg hfull] at h
      obtain ⟨⟨t, new⟩, hnew, h⟩ := bind_eq_ok.mp h
      obtain ⟨a, u, _, hsame, hu, _⟩ := scheduleNewData_spec hnew
      rw [← pure_eq_ok.mp h]
      have ht : t = u.updateStats radio := hu
      dsimp only
      rw [ht]
      exact (hsane.same hsame).updateStats hr

theorem Sane.configureFlow (hr : PositiveRates radio rate avg) (hs : Sane avg s) (rnti : ℕ)
    (channel : LcConfig) : Sane avg (s.configureFlow radio rnti channel) := by
  -- a new user starts with the average of one, and a known one keeps its own
  have hupsert : ∀ f : Option (FlowPerf R) → FlowPerf R,
      (f none).lastAveragedSlicedThroughput = radio.one →
      (∀ old, (f (some old)).lastAveragedSlicedThroughput = old.lastAveragedSlicedThroughput) →
      OrderedMap.Sorted (OrderedMap.upsert (· < ·) rnti f s.flowStatsDl) ∧
        ∀ user ∈ OrderedMap.upsert (· < ·) rnti f s.flowStatsDl,
          avg user.2.lastAveragedSlicedThroughput := by
    intro f hnew hknown
    refine ⟨hs.sorted.upsert rnti f, ?_⟩
    rintro ⟨k, flow⟩ huser
    cases OrderedMap.mem_upsert huser with
    | inl hold => exact hs.averages _ hold
    | inr hput =>
      obtain ⟨_, rfl | ⟨old, hold, rfl⟩⟩ := hput
      · dsimp only
        rw [hnew]
        exact hr.one
      · dsimp only
        rw [hknown]
        exact hs.averages _ hold
  unfold NsPfScheduler.configureFlow
  dsimp only
  by_cases hslice : channel.eRabMaximulBitrateDl = 4294967295
  · rw [if_pos hslice]
    obtain ⟨hsorted, haverages⟩ := hupsert
      (fun old => { old.getD ⟨0, 0, 0, radio.one, radio.one, noSlice⟩ with
        sliceId := (decodeSlice channel.eRabGuaranteedBitrateDl).1 }) rfl fun _ => rfl
    exact ⟨hsorted, haverages, hs.txModes⟩
  · rw [if_neg hslice]
    obtain ⟨hsorted, haverages⟩ := hupsert
      (fun old => old.getD ⟨0, 0, 0, radio.one, radio.one, noSlice⟩) rfl fun _ => rfl
    exact ⟨hsorted, haverages, hs.txModes⟩

theorem Sane.ueConfig (hs : Sane avg s) (rnti : ℕ) {transmissionMode : ℕ}
    (hmode : transmissionMode ≤ 6) : Sane avg (s.doCschedUeConfigReq rnti transmissionMode) := by
  have htxModes : ∀ other txMode,
      Function.update s.uesTxMode rnti (some transmissionMode) other = some txMode →
      txMode ≤ 6 := by
    intro other txMode hother
    by_cases hrnti : other = rnti
    · rw [hrnti, Function.update_self] at hother
      cases hother
      exact hmode
    · rw [Function.update_of_ne hrnti] at hother
      exact hs.txModes other txMode hother
  unfold NsPfScheduler.doCschedUeConfigReq
  dsimp only
  cases s.uesTxMode rnti with
  | none => exact ⟨hs.sorted, hs.averages, htxModes⟩
  | some old => exact ⟨hs.sorted, hs.averages, htxModes⟩

theorem Sane.lcConfig (hr : PositiveRates radio rate avg) (hs : Sane avg s) {rnti : ℕ}
    {reconfigureFlag : Bool} {channels : List LcConfig}
    (h : s.doCschedLcConfigReq radio rnti reconfigureFlag channels = .ok s') : Sane avg s' := by
  unfold NsPfScheduler.doCschedLcConfigReq at h
  dsimp only at h
  have hchannels : ∀ (l : List LcConfig) (t : NsPfScheduler R), Sane avg t →
      Sane avg (l.foldl (fun s channel => s.configureChannel rnti reconfigureFlag channel) t) := by
    intro l
    induction l with
    | nil => exact fun t ht => ht
    | cons channel rest ih =>
      intro t ht
      apply ih
      unfold NsPfScheduler.configureChannel
      dsimp only
      split
      · exact ⟨ht.sorted, ht.averages, ht.txModes⟩
      · exact ht
  have hflows : ∀ (l : List LcConfig) (t : NsPfScheduler R), Sane avg t →
      Sane avg (l.foldl (fun s channel => s.configureFlow radio rnti channel) t) := by
    intro l
    induction l with
    | nil => exact fun t ht => ht
    | cons channel rest ih => exact fun t ht => ih _ (ht.configureFlow hr rnti channel)
  split at h
  · cases h
  · rw [← pure_eq_ok.mp h]
    exact hflows channels _ (hchannels channels s hs)

theorem Sane.lcRelease (hs : Sane avg s) {rnti : ℕ} {channels : List ℕ}
    (h : s.doCschedLcReleaseReq rnti channels = .ok s') : Sane avg s' := by
  apply foldlM_inv (P := fun t _ => Sane avg t) _ hs h
  intro t lcid _ t' ht hstep
  cases hlc : t.ueLogicalChannelsConfigList (rnti, lcid) with
  | none =>
    rw [hlc] at hstep
    cases hstep
  | some bearer =>
    rw [hlc] at hstep
    rw [← pure_eq_ok.mp hstep]
    exact ⟨ht.sorted, ht.averages, ht.txModes⟩

theorem Sane.ueRelease (hs : Sane avg s) (rnti : ℕ) :
    Sane avg (s.doCschedUeReleaseReq rnti) := by
  refine ⟨hs.sorted.erase rnti, ?_, ?_⟩
  · intro user huser
    exact hs.averages user (List.mem_filter.mp huser).1
  · intro other txMode hother
    have hother : Function.update s.uesTxMode rnti none other = some txMode := hother
    by_cases hrnti : other = rnti
    · rw [hrnti, Function.update_self] at hother
      cases hother
    · rw [Function.update_of_ne hrnti] at hother
      exact hs.txModes other txMode hother

theorem Sane.sliceInfo (hs : Sane avg s) {action : SliceAction} {type : SliceAttr}
    (h : s.updateSliceInfo action type = .ok s') : Sane avg s' := by
  unfold NsPfScheduler.updateSliceInfo at h
  obtain ⟨slices, _, h⟩ := bind_eq_ok.mp h
  dsimp only at h
  generalize (if action.value = [] then 0 else totalScheduledRbg slices) = total at h
  by_cases hover : rbgNumInt s.dlBandwidth < total
  · rw [if_pos hover] at h
    cases h
  · rw [if_neg hover] at h
    rw [← pure_eq_ok.mp h]
    exact ⟨hs.sorted, hs.averages, hs.txModes⟩

theorem Sane.step (hr : PositiveRates radio rate avg) (hs : Sane avg s) {e : NsPfEvent}
    (he : (NsPfScheduler.machine radio).enabled s e) :
    Sane avg ((NsPfScheduler.machine radio).next s e) := by
  obtain ⟨hok, hmode⟩ := he
  have hnext : ∀ t, s.step radio e = .ok t → (NsPfScheduler.machine radio).next s e = t := by
    intro t ht
    simp only [NsPfScheduler.machine, ht]
  obtain ⟨t, ht⟩ : ∃ t, s.step radio e = .ok t := by
    cases hstep : s.step radio e with
    | ok t => exact ⟨t, rfl⟩
    | error fault =>
      rw [hstep] at hok
      cases hok
  rw [hnext t ht]
  cases e with
  | ueConfig rnti transmissionMode =>
    rw [← pure_eq_ok.mp ht]
    exact hs.ueConfig rnti hmode
  | lcConfig rnti reconfigureFlag channels => exact hs.lcConfig hr ht
  | lcRelease rnti channels => exact hs.lcRelease ht
  | ueRelease rnti =>
    rw [← pure_eq_ok.mp ht]
    exact hs.ueRelease rnti
  | rlcBufferReq rnti lcid req =>
    rw [← pure_eq_ok.mp ht]
    exact ⟨hs.sorted, hs.averages, hs.txModes⟩
  | cqiInfo rnti threshold sbCqi =>
    rw [← pure_eq_ok.mp ht]
    exact ⟨hs.sorted, hs.averages, hs.txModes⟩
  | sliceInfo action type => exact hs.sliceInfo ht
  | trigger ffr infos =>
    dsimp only [NsPfScheduler.step] at ht
    cases htrigger : doSchedDlTriggerReq { radio with toFfr := ffr } s infos with
    | error fault =>
      rw [htrigger] at ht
      cases ht
    | ok r =>
      rw [htrigger] at ht
      cases ht
      exact hs.trigger (hr.withFfr ffr) htrigger

theorem Sane.of_reaches (hr : PositiveRates radio rate avg) {harqOn : Bool} {dlBandwidth : ℕ}
    {es : List NsPfEvent}
    (h : (NsPfScheduler.machine radio).Reaches (.start harqOn dlBandwidth) es s) :
    Sane avg s := by
  apply h.invariant
  · exact ⟨List.Pairwise.nil, fun _ hu => (List.not_mem_nil hu).elim, fun _ _ hnone => by
      cases hnone⟩
  · intro t e ht he
    exact ht.step hr he

end NetGymSim.Gma

import NetGymSim.Gma.SliceUsers

/-!
# Who gets an RBG

The user that an RBG goes to is one the slice tests of the run let in. An RBG of the first
run that goes to nobody found no user of its slice with a channel to serve: a user that
meets all tests has a metric above zero, and one that was chosen is only replaced.
-/

namespace NetGymSim.Gma
open NetGymSim.Lib
variable {R : Type}

/-- The tests of a run for a user of the right slice: frequency reuse, HARQ, CQI, an active
channel, and bytes of a channel that are not scheduled yet. -/
def Eligible (radio : Radio R) (s : NsPfScheduler R) (rntiAllocated : List ℕ) (i rnti : ℕ) : Prop :=
  (∃ layers, s.inRange radio rntiAllocated i rnti = .ok (some layers)) ∧
    (∃ s' lcActives, s.refreshSlicePriority radio = .ok s' ∧
      s'.priorityAwareLcActivePerFlow rnti = .ok lcActives ∧ 0 < lcActives) ∧
    ∃ entry ∈ s.rlcBufferReq, s.unscheduled radio rnti entry = true

variable {radio : Radio R} {rbgNum rbgSize : ℕ} {rntiAllocated : List ℕ}

theorem Eligible.bearers {s s' : NsPfScheduler R} {i rnti : ℕ}
    (h : Eligible radio s rntiAllocated i rnti)
    (hs : ∃ bearers, s' = { s with sliceBearerTypeMap := bearers }) :
    Eligible radio s' rntiAllocated i rnti := by
  obtain ⟨bearers, rfl⟩ := hs
  exact h

theorem considerChannels_spec (radio : Radio R) (rnti : ℕ) (flow : FlowPerf R) (rate metric : R)
    (channels : List ((ℕ × ℕ) × RlcBufferReq)) (pick : Pick R) :
    let pick' := channels.foldl (considerChannel radio rnti flow rate metric) pick
    pick'.itMax = some (rnti, flow) ∨
      pick'.itMax = pick.itMax ∧ pick'.rcqiMax = pick.rcqiMax ∧
        ∀ entry ∈ channels, pick.sched.unscheduled radio rnti entry = true →
          radio.gt metric pick.rcqiMax = false := by
  induction channels generalizing pick with
  | nil => exact .inr ⟨rfl, rfl, fun _ hentry => (List.not_mem_nil hentry).elim⟩
  | cons entry rest ih =>
    dsimp only
    rw [List.foldl_cons]
    by_cases hbest :
        (pick.sched.unscheduled radio rnti entry && radio.gt metric pick.rcqiMax) = true
    · have hchosen : (considerChannel radio rnti flow rate metric pick entry).itMax =
          some (rnti, flow) := by
        rw [considerChannel, if_pos hbest]
      cases ih (considerChannel radio rnti flow rate metric pick entry) with
      | inl h => exact .inl h
      | inr h => exact .inl (h.1.trans hchosen)
    · have hsame : considerChannel radio rnti flow rate metric pick entry = pick := by
        rw [considerChannel, if_neg hbest]
      rw [hsame]
      apply (ih pick).imp id
      rintro ⟨hmax, hrcqi, hrest⟩
      refine ⟨hmax, hrcqi, ?_⟩
      intro e he hun
      cases List.mem_cons.mp he with
      | inl heq =>
        rw [heq] at hun
        rw [hun, Bool.true_and] at hbest
        exact Bool.eq_false_of_not_eq_true hbest
      | inr hmem => exact hrest e hmem hun

theorem considerUser_spec {usage : ℕ → ℕ} {run i : ℕ} {info : RbgType × ℕ} {pick pick' : Pick R}
    {user : ℕ × FlowPerf R}
    (h : considerUser radio rbgSize rntiAllocated usage run i info pick user = .ok pick') :
    let admitted := sliceAdmits run info user.2.sliceId (usage user.2.sliceId)
      (pick.sched.maxRbgs user.2.sliceId) = true
    (admitted ∧ pick'.itMax = some user) ∨
      (pick'.itMax = pick.itMax ∧ pick'.rcqiMax = pick.rcqiMax ∧
        (admitted → Eligible radio pick.sched rntiAllocated i user.1 → ∃ layers,
          pick.sched.inRange radio rntiAllocated i user.1 = .ok (some layers) ∧
          radio.gt (rcqi radio (info.2 = user.2.sliceId) user.2
            (achievableRate radio rbgSize layers.1 layers.2)) pick.rcqiMax = false)) := by
  intro admitted
  unfold considerUser at h
  dsimp only at h
  by_cases hadmits : admitted
  · rw [if_pos hadmits] at h
    obtain ⟨reached, hreached, h⟩ := bind_eq_ok.mp h
    cases reached with
    | none =>
      cases pure_eq_ok.mp h
      refine .inr ⟨rfl, rfl, fun _ heligible => ?_⟩
      obtain ⟨⟨layers, hlayers⟩, _⟩ := heligible
      rw [hreached] at hlayers
      cases hlayers
    | some layers =>
      obtain ⟨s, hs, h⟩ := bind_eq_ok.mp h
      obtain ⟨lcActives, hactives, h⟩ := bind_eq_ok.mp h
      rw [← pure_eq_ok.mp h]
      by_cases hactive : 0 < lcActives
      · rw [if_pos hactive]
        cases considerChannels_spec radio user.1 user.2
            (achievableRate radio rbgSize layers.1 layers.2)
            (rcqi radio (info.2 = user.2.sliceId) user.2
              (achievableRate radio rbgSize layers.1 layers.2))
            s.rlcBufferReq { pick with sched := s } with
        | inl hchosen => exact .inl ⟨hadmits, hchosen⟩
        | inr hkept =>
          obtain ⟨hmax, hrcqi, hnone⟩ := hkept
          refine .inr ⟨hmax, hrcqi, fun _ heligible => ⟨layers, hreached, ?_⟩⟩
          obtain ⟨bearers, rfl⟩ := refreshSlicePriority_bearers hs
          obtain ⟨_, _, entry, hentry, hun⟩ := heligible
          exact hnone entry hentry hun
      · rw [if_neg hactive]
        refine .inr ⟨rfl, rfl, fun _ heligible => ?_⟩
        obtain ⟨_, ⟨s', lcActives', hs', hactives', hpos⟩, _⟩ := heligible
        rw [hs] at hs'
        cases hs'
        rw [hactives] at hactives'
        cases hactives'
        exact absurd hpos hactive
  · rw [if_neg hadmits] at h
    cases pure_eq_ok.mp h
    exact .inr ⟨rfl, rfl, fun hin => absurd hin hadmits⟩

theorem pickUser_some {run i : ℕ} {a : Allocation R} {pick : Pick R} {user : ℕ × FlowPerf R}
    (h : pickUser radio rbgNum rbgSize rntiAllocated run a i = .ok pick)
    (hmax : pick.itMax = some user) :
    user ∈ a.sched.flowStatsDl ∧
      sliceAdmits run (getRbgSliceInfo a.sched.sliceInfoMap (rbgNum - 1 - i)) user.2.sliceId
        (a.sliceRbgUsageMap user.2.sliceId) (a.sched.maxRbgs user.2.sliceId) = true := by
  have hall := foldlM_inv
    (P := fun q rest => (∃ bearers, q.sched = { a.sched with sliceBearerTypeMap := bearers }) ∧
      (∀ u ∈ rest, u ∈ a.sched.flowStatsDl) ∧ ∀ u, q.itMax = some u →
        u ∈ a.sched.flowStatsDl ∧
          sliceAdmits run (getRbgSliceInfo a.sched.sliceInfoMap (rbgNum - 1 - i)) u.2.sliceId
            (a.sliceRbgUsageMap u.2.sliceId) (a.sched.maxRbgs u.2.sliceId) = true)
    ?_ ⟨⟨_, rfl⟩, fun _ hu => hu, fun _ hnone => by cases hnone⟩ h
  · exact hall.2.2 user hmax
  · rintro q u rest q' ⟨⟨bearers, hq⟩, hrest, hsome⟩ hstep
    obtain ⟨bearers', hq'⟩ := considerUser_bearers hstep
    refine ⟨⟨bearers', ?_⟩, fun v hv => hrest v (List.mem_cons_of_mem _ hv), ?_⟩
    · rw [hq', hq]
    · intro v hv
      obtain ⟨hadmits, hchosen⟩ | ⟨hkept, _⟩ := considerUser_spec hstep
      · rw [hchosen] at hv
        cases hv
        rw [hq] at hadmits
        exact ⟨hrest u List.mem_cons_self, hadmits⟩
      · exact hsome v (hkept ▸ hv)

theorem inRange_layers {s : NsPfScheduler R} {i rnti : ℕ} {layers : ℕ × List ℕ}
    (h : s.inRange radio rntiAllocated i rnti = .ok (some layers)) :
    ∃ txMode, s.uesTxMode rnti = some txMode ∧ layers.1 = txMode2LayerNum txMode := by
  unfold NsPfScheduler.inRange at h
  by_cases hffr : radio.isDlRbgAvailableForUe i rnti = true
  · rw [if_pos hffr] at h
    obtain ⟨available, _, h⟩ := bind_eq_ok.mp h
    by_cases hharq : rnti ∈ rntiAllocated ∨ available = false
    · rw [if_pos hharq] at h
      cases pure_eq_ok.mp h
    · rw [if_neg hharq] at h
      obtain ⟨txMode, htxMode, h⟩ := bind_eq_ok.mp h
      obtain ⟨sbCqi, _, h⟩ := bind_eq_ok.mp h
      obtain ⟨cqi1, _, h⟩ := bind_eq_ok.mp h
      have hout := pure_eq_ok.mp h
      split_ifs at hout
      cases hout
      exact ⟨txMode, orFatal_ok htxMode, rfl⟩
  · rw [if_neg hffr] at h
    cases pure_eq_ok.mp h

theorem txMode2LayerNum_pos {txMode : ℕ} (h : txMode ≤ 6) : 0 < txMode2LayerNum txMode := by
  unfold txMode2LayerNum
  split_ifs
  · omega
  · omega
  · omega

theorem achievableRate_pos {rate avg : R → Prop} (hr : PositiveRates radio rate avg)
    (hsize : 0 < rbgSize) {nLayer : ℕ} (hlayers : 0 < nLayer) (sbCqi : List ℕ) :
    rate (achievableRate radio rbgSize nLayer sbCqi) := by
  obtain ⟨n, rfl⟩ : ∃ n, nLayer = n + 1 := ⟨nLayer - 1, by omega⟩
  unfold achievableRate
  induction n with
  | zero =>
    rw [List.range_one, List.foldl_cons, List.foldl_nil]
    apply hr.addRate_zero
    exact Nat.div_pos (hr.tbSize _ rbgSize hsize) (by omega)
  | succ n ih =>
    rw [List.range_succ, List.foldl_append, List.foldl_cons, List.foldl_nil]
    exact hr.addRate _ _ (ih (by omega))

/-- An RBG of the first run that goes to nobody found no user of its slice that meets the tests. -/
theorem pickUser_none {rate avg : R → Prop} (hr : PositiveRates radio rate avg)
    (hsize : 0 < rbgSize) {i : ℕ} {a : Allocation R} (hsane : Sane avg a.sched) {pick : Pick R}
    (h : pickUser radio rbgNum rbgSize rntiAllocated 0 a i = .ok pick) (hnone : pick.itMax = none)
    {rnti : ℕ} (hslice : a.sched.sliceOf rnti =
      some (getRbgSliceInfo a.sched.sliceInfoMap (rbgNum - 1 - i)).2) :
    ¬ Eligible radio a.sched rntiAllocated i rnti := by
  have hall := foldlM_inv
    (P := fun q rest => (∃ bearers, q.sched = { a.sched with sliceBearerTypeMap := bearers }) ∧
      (∀ u ∈ rest, u ∈ a.sched.flowStatsDl) ∧
      (q.itMax = none → q.rcqiMax = radio.zero ∧ ∀ u ∈ a.sched.flowStatsDl, u ∉ rest →
        u.2.sliceId = (getRbgSliceInfo a.sched.sliceInfoMap (rbgNum - 1 - i)).2 →
        ¬ Eligible radio a.sched rntiAllocated i u.1))
    ?_ ⟨⟨_, rfl⟩, fun _ hu => hu, fun _ => ⟨rfl, fun _ hu hnot => absurd hu hnot⟩⟩ h
  · obtain ⟨flow, hfind, hflow⟩ := Option.map_eq_some_iff.mp hslice
    exact (hall.2.2 hnone).2 (rnti, flow) (OrderedMap.mem_of_find hfind) (List.not_mem_nil) hflow
  · rintro q u rest q' ⟨⟨bearers, hq⟩, hrest, hzero⟩ hstep
    obtain ⟨bearers', hq'⟩ := considerUser_bearers hstep
    refine ⟨⟨bearers', ?_⟩, fun v hv => hrest v (List.mem_cons_of_mem _ hv), ?_⟩
    · rw [hq', hq]
    · intro hq'none
      obtain ⟨_, hchosen⟩ | ⟨hkept, hrcqi, htests⟩ := considerUser_spec hstep
      · rw [hchosen] at hq'none
        cases hq'none
      · obtain ⟨hqzero, hearlier⟩ := hzero (hkept ▸ hq'none)
        refine ⟨hrcqi.trans hqzero, ?_⟩
        intro v hv hlater hvslice heligible
        by_cases hvu : v = u
        · subst hvu
          have hadmits : sliceAdmits 0 (getRbgSliceInfo a.sched.sliceInfoMap (rbgNum - 1 - i))
              v.2.sliceId (a.sliceRbgUsageMap v.2.sliceId) (q.sched.maxRbgs v.2.sliceId) =
                true := by
            simp [sliceAdmits, hvslice]
          obtain ⟨layers, hlayers, hgt⟩ := htests hadmits (heligible.bearers ⟨bearers, hq⟩)
          obtain ⟨txMode, htxMode, hnLayer⟩ := inRange_layers hlayers
          rw [hq] at htxMode
          have hpos : 0 < layers.1 := by
            rw [hnLayer]
            exact txMode2LayerNum_pos (hsane.txModes v.1 txMode htxMode)
          have hmetric := hr.slicedRcqi _ _ (achievableRate_pos hr hsize hpos layers.2)
            (hsane.averages v hv)
          rw [rcqi, if_pos (by simpa using hvslice.symm), hqzero, hmetric] at hgt
          cases hgt
        · refine hearlier v hv ?_ hvslice heligible
          intro hin
          cases List.mem_cons.mp hin with
          | inl heq => exact hvu heq
          | inr hmem => exact hlater hmem

end NetGymSim.Gma

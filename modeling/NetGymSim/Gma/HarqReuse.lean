import NetGymSim.Gma.TtiGrants

/-!
# A HARQ process is handed out once

`UpdateHarqProcessId` gives a process that is free and marks it, and the mark goes only with the
timer, with feedback that is no NACK, with a NACK after the last redundancy version, or with the
user. So a process that is handed out again was given back in between.
-/

namespace NetGymSim.Gma
open NetGymSim.Lib
variable {R : Type}

def NsPfScheduler.processStatus (s : NsPfScheduler R) (rnti i : ℕ) : Option ℕ :=
  (s.dlHarqProcessesStatus rnti).bind fun status => status[i]?

def NsPfScheduler.Busy (s : NsPfScheduler R) (rnti i : ℕ) : Prop :=
  ∃ st, s.processStatus rnti i = some st ∧ st ≠ 0

def newBlocks (radio : Radio R) (s : NsPfScheduler R) (dlInfoList : List DlInfo) :
    Except Fault (List BuildData) := do
  let s := s.refreshDlCqiMaps
  match getRbgSize s.dlBandwidth with
  | none => .error .outOfRange
  | some rbgSize => do
      let rbgNum := s.dlBandwidth / rbgSize
      let harq ← processDlHarq radio rbgNum s dlInfoList
      if harq.rbgAllocatedNum = rbgNum then pure []
      else (scheduleNewData radio rbgNum rbgSize harq).map Prod.snd

def assigned (radio : Radio R) (s : NsPfScheduler R) (dlInfoList : List DlInfo) : List (ℕ × ℕ) :=
  match newBlocks radio s dlInfoList with
  | .ok build => build.map fun el => (el.rnti, el.dci.harqProcess)
  | .error _ => []

/-- The reasons a trigger has to free a process: its timer, or feedback that is no NACK, or that is
one after the last redundancy version. -/
def Freed (s : NsPfScheduler R) (dlInfoList : List DlInfo) (rnti i : ℕ) : Prop :=
  (∃ timers, (rnti, timers) ∈ s.dlHarqProcessesTimer ∧ timers[i]? = some 11) ∨
    ∃ info ∈ s.feedback dlInfoList, info.rnti = rnti ∧ info.harqProcessId = i ∧
      (¬ info.Nacked ∨ ∃ dcis dci, s.dlHarqProcessesDciBuffer rnti = some dcis ∧
        dcis[i]? = some dci ∧ dci.Exhausted)

def GivesBack (s : NsPfScheduler R) (rnti i : ℕ) : NsPfEvent → Prop
  | .ueRelease released => released = rnti
  | .trigger _ dlInfoList => Freed s dlInfoList rnti i
  | _ => False

section Update
variable {s s' : NsPfScheduler R} {rnti i : ℕ}

/-- Both searches are the same, so that a process is there when one was promised. -/
theorem updateHarqProcessId_of_availability (h : s.harqProcessAvailability rnti = .ok true) :
    ∃ r, s.updateHarqProcessId rnti = .ok r := by
  unfold NsPfScheduler.harqProcessAvailability at h
  obtain ⟨current, hcurrent, h⟩ := bind_eq_ok.mp h
  obtain ⟨status, hstatus, h⟩ := bind_eq_ok.mp h
  obtain ⟨i, hi, h⟩ := bind_eq_ok.mp h
  obtain ⟨st, hst, h⟩ := bind_eq_ok.mp h
  have hzero : st = 0 := of_decide_eq_true (pure_eq_ok.mp h)
  unfold NsPfScheduler.updateHarqProcessId
  by_cases hon : s.harqOn = true
  · simp only [if_pos hon, hcurrent, hstatus, hi, hst, bind, Except.bind, if_pos hzero]
    exact ⟨_, rfl⟩
  · exact ⟨_, if_neg hon⟩

structure HandsOut (s s' : NsPfScheduler R) (given : List (ℕ × ℕ)) : Prop where
  harqOn : s'.harqOn = s.harqOn
  nodup : given.Nodup
  free : ∀ p ∈ given, s.processStatus p.1 p.2 = some 0
  marked : ∀ p ∈ given, s'.processStatus p.1 p.2 = some 1
  kept : ∀ p ∉ given, s'.processStatus p.1 p.2 = s.processStatus p.1 p.2

theorem HandsOut.none (hon : s'.harqOn = s.harqOn)
    (hstatus : s'.dlHarqProcessesStatus = s.dlHarqProcessesStatus) : HandsOut s s' [] := by
  refine ⟨hon, .nil, by simp, by simp, fun p _ => ?_⟩
  rw [NsPfScheduler.processStatus, NsPfScheduler.processStatus, hstatus]

theorem HandsOut.append {t : NsPfScheduler R} {given given' : List (ℕ × ℕ)}
    (h : HandsOut s t given) (h' : HandsOut t s' given') : HandsOut s s' (given ++ given') := by
  have hdisj : ∀ p ∈ given, p ∉ given' := by
    intro p hp hp'
    have hmarked := h.marked p hp
    rw [h'.free p hp'] at hmarked
    cases hmarked
  refine ⟨h'.harqOn.trans h.harqOn, ?_, ?_, ?_, ?_⟩
  · exact List.nodup_append'.mpr ⟨h.nodup, h'.nodup, fun p hp hp' => hdisj p hp hp'⟩
  · intro p hp
    rcases List.mem_append.mp hp with hp | hp
    · exact h.free p hp
    · have hnot : p ∉ given := fun hold => hdisj p hold hp
      rw [← h.kept p hnot]
      exact h'.free p hp
  · intro p hp
    rcases List.mem_append.mp hp with hp | hp
    · rw [h'.kept p (hdisj p hp)]
      exact h.marked p hp
    · exact h'.marked p hp
  · intro p hp
    rw [List.mem_append, not_or] at hp
    rw [h'.kept p hp.2, h.kept p hp.1]

theorem updateHarqProcessId_handsOut (hon : s.harqOn = true)
    (h : s.updateHarqProcessId rnti = .ok (i, s')) : HandsOut s s' [(rnti, i)] := by
  unfold NsPfScheduler.updateHarqProcessId at h
  rw [if_pos hon] at h
  obtain ⟨current, hcurrent, h⟩ := bind_eq_ok.mp h
  obtain ⟨status, hstatus, h⟩ := bind_eq_ok.mp h
  obtain ⟨j, hj, h⟩ := bind_eq_ok.mp h
  obtain ⟨st, hst, h⟩ := bind_eq_ok.mp h
  by_cases hzero : st = 0
  · rw [if_pos hzero] at h
    cases pure_eq_ok.mp h
    have hold : s.dlHarqProcessesStatus rnti = some status := orFatal_ok hstatus
    have hget : status[i]? = some 0 := hzero ▸ vecAt_ok hst
    have hlt : i < status.length := (List.getElem?_eq_some_iff.mp hget).1
    refine ⟨rfl, List.nodup_singleton _, ?_, ?_, ?_⟩
    · intro p hp
      obtain rfl := List.mem_singleton.mp hp
      rw [NsPfScheduler.processStatus, hold]
      exact hget
    · intro p hp
      obtain rfl := List.mem_singleton.mp hp
      simp [NsPfScheduler.processStatus, hlt]
    · rintro ⟨r, j⟩ hp
      simp only [List.mem_singleton, Prod.mk.injEq, not_and] at hp
      simp only [NsPfScheduler.processStatus]
      by_cases hr : r = rnti
      · subst hr
        rw [Function.update_self, hold, Option.bind_some, Option.bind_some,
          List.getElem?_set_ne fun hij => hp rfl hij.symm]
      · rw [Function.update_of_ne hr]
  · rw [if_neg hzero] at h
    cases h

end Update

section NewData
variable {s s' : NsPfScheduler R} {rnti : ℕ}

theorem buildPdus_status {lcid harqProcess lcActives nLayer : ℕ} {tbsSize : List ℕ}
    {r : NsPfScheduler R × List RlcPdu}
    (h : buildPdus s rnti lcid harqProcess lcActives nLayer tbsSize = .ok r) :
    HandsOut s r.1 [] := by
  refine foldlM_inv (P := fun q _ => HandsOut s q.1 []) ?_ (.none rfl rfl) h
  intro q j _ q' hq hstep
  obtain ⟨tbs, -, hstep⟩ := bind_eq_ok.mp hstep
  dsimp only at hstep
  by_cases hon : (q.1.updateDlRlcBufferInfo rnti lcid (tbs / lcActives)).harqOn = true
  · rw [if_pos hon] at hstep
    obtain ⟨_, -, hstep⟩ := bind_eq_ok.mp hstep
    obtain ⟨_, -, hstep⟩ := bind_eq_ok.mp hstep
    obtain ⟨_, -, hstep⟩ := bind_eq_ok.mp hstep
    rw [← pure_eq_ok.mp hstep]
    exact hq.append (.none rfl rfl)
  · rw [if_neg hon] at hstep
    rw [← pure_eq_ok.mp hstep]
    exact hq.append (.none rfl rfl)

theorem storeDci_status {dci : DlDci} (h : s.storeDci rnti dci = .ok s') : HandsOut s s' [] := by
  unfold NsPfScheduler.storeDci at h
  by_cases hon : s.harqOn = true
  · rw [if_pos hon] at h
    obtain ⟨_, -, h⟩ := bind_eq_ok.mp h
    obtain ⟨_, -, h⟩ := bind_eq_ok.mp h
    obtain ⟨_, -, h⟩ := bind_eq_ok.mp h
    obtain ⟨_, -, h⟩ := bind_eq_ok.mp h
    cases pure_eq_ok.mp h
    exact .none rfl rfl
  · rw [if_neg hon] at h
    cases pure_eq_ok.mp h
    exact .none rfl rfl

theorem buildData_handsOut {radio : Radio R} {rbgSize : ℕ}
    {sliceAllocationMap : List (ℕ × List ℕ)} {rbgs : List ℕ} {r : NsPfScheduler R × BuildData}
    (hon : s.harqOn = true)
    (h : buildData radio rbgSize sliceAllocationMap s rnti rbgs = .ok r) :
    HandsOut s r.1 [(r.2.rnti, r.2.dci.harqProcess)] := by
  unfold buildData at h
  obtain ⟨⟨harqProcess, s₁⟩, hid, h⟩ := bind_eq_ok.mp h
  obtain ⟨_, -, h⟩ := bind_eq_ok.mp h
  obtain ⟨_, -, h⟩ := bind_eq_ok.mp h
  obtain ⟨_, -, h⟩ := bind_eq_ok.mp h
  obtain ⟨_, -, h⟩ := bind_eq_ok.mp h
  obtain ⟨⟨s₂, pdus⟩, hpdus, h⟩ := bind_eq_ok.mp h
  obtain ⟨s₃, hstore, h⟩ := bind_eq_ok.mp h
  have h₂ : HandsOut s₁ s₂ [] := by
    refine foldlM_inv (P := fun q _ => HandsOut s₁ q.1 []) ?_ (.none rfl rfl) hpdus
    intro q entry _ q' hq hstep
    obtain ⟨built, hbuilt, hstep⟩ := bind_eq_ok.mp hstep
    rw [← pure_eq_ok.mp hstep]
    exact hq.append (buildPdus_status hbuilt)
  have h₃ : HandsOut s₁ s₃ [] := h₂.append (storeDci_status hstore)
  rw [← pure_eq_ok.mp h]
  exact ((updateHarqProcessId_handsOut hon hid).append h₃).append (.none rfl rfl)

theorem buildDataList_handsOut {radio : Radio R} {rbgSize : ℕ}
    {sliceAllocationMap allocationMap : List (ℕ × List ℕ)}
    {r : NsPfScheduler R × List BuildData} (hon : s.harqOn = true)
    (h : buildDataList radio rbgSize sliceAllocationMap allocationMap s = .ok r) :
    HandsOut s r.1 (r.2.map fun el => (el.rnti, el.dci.harqProcess)) := by
  refine foldlM_inv (P := fun q _ =>
    HandsOut s q.1 (q.2.map fun el => (el.rnti, el.dci.harqProcess))) ?_ (.none rfl rfl) h
  intro q entry _ q' hq hstep
  obtain ⟨built, hbuilt, hstep⟩ := bind_eq_ok.mp hstep
  rw [← pure_eq_ok.mp hstep, List.map_append]
  exact hq.append (buildData_handsOut (hq.harqOn.trans hon) hbuilt)

theorem scheduleNewData_handsOut {radio : Radio R} {rbgNum rbgSize : ℕ} {harq : HarqPass R}
    {r : NsPfScheduler R × List BuildData} (hon : harq.sched.harqOn = true)
    (h : scheduleNewData radio rbgNum rbgSize harq = .ok r) :
    HandsOut harq.sched r.1 (r.2.map fun el => (el.rnti, el.dci.harqProcess)) := by
  unfold scheduleNewData at h
  obtain ⟨a, ha, h⟩ := bind_eq_ok.mp h
  obtain ⟨⟨s, build⟩, hbuild, h⟩ := bind_eq_ok.mp h
  obtain ⟨scheduled, bearers, hs⟩ := (allocate_given ha).2
  have hstart : HandsOut harq.sched a.sched.resetTtiStats [] := by
    rw [hs]
    exact .none rfl rfl
  have hlist := buildDataList_handsOut (hstart.harqOn.trans hon) hbuild
  rw [← pure_eq_ok.mp h]
  have hstats : HandsOut s (s.updateStats radio) [] := .none rfl rfl
  have hend := (hstart.append hlist).append hstats
  rwa [List.nil_append, List.append_nil] at hend

end NewData

section Feedback
variable {s s' : NsPfScheduler R} {rnti i : ℕ}

theorem refreshTimers_status {r : ℕ} {timers : List ℕ} {q : List ℕ × NsPfScheduler R}
    (h : s.refreshTimers r timers = .ok q) (hno : r = rnti → timers[i]? ≠ some 11) :
    q.2.processStatus rnti i = s.processStatus rnti i := by
  have hfold := foldlM_inv (P := fun (q : List ℕ × NsPfScheduler R) (rest : List ℕ) =>
      rest.Nodup ∧ (∀ j ∈ rest, q.1[j]? = timers[j]?) ∧
      q.2.processStatus rnti i = s.processStatus rnti i) ?_
      ⟨List.nodup_range, fun _ _ => rfl, rfl⟩ h
  · exact hfold.2.2
  · rintro ⟨ts, t⟩ j rest q' ⟨hnodup, hts, hstatus⟩ hturn
    obtain ⟨hj, hrest⟩ := List.nodup_cons.mp hnodup
    obtain ⟨timer, htimer, hturn⟩ := bind_eq_ok.mp hturn
    have hother : ∀ value, ∀ k ∈ rest, (ts.set j value)[k]? = timers[k]? := by
      intro value k hk
      have hne : j ≠ k := fun heq => hj (heq ▸ hk)
      rw [List.getElem?_set_ne hne]
      exact hts k (List.mem_cons_of_mem j hk)
    by_cases hout : timer = 11
    · rw [if_pos hout] at hturn
      obtain ⟨status, hfind, hturn⟩ := bind_eq_ok.mp hturn
      obtain ⟨status', hset, hturn⟩ := bind_eq_ok.mp hturn
      obtain ⟨-, rfl⟩ := vecSet_ok hset
      rw [← pure_eq_ok.mp hturn]
      refine ⟨hrest, hother 0, ?_⟩
      rw [← hstatus]
      simp only [NsPfScheduler.processStatus]
      by_cases hr : rnti = r
      · have hij : j ≠ i := by
          intro hij
          apply hno hr.symm
          rw [← hij, ← hts j List.mem_cons_self, vecAt_ok htimer, hout]
        rw [hr, Function.update_self, orFatal_ok hfind, Option.bind_some, Option.bind_some,
          List.getElem?_set_ne hij]
      · rw [Function.update_of_ne hr]
    · rw [if_neg hout] at hturn
      rw [← pure_eq_ok.mp hturn]
      exact ⟨hrest, hother _, hstatus⟩

theorem refreshHarqProcesses_status (h : s.refreshHarqProcesses = .ok s')
    (hno : ∀ timers, (rnti, timers) ∈ s.dlHarqProcessesTimer → timers[i]? ≠ some 11) :
    s'.processStatus rnti i = s.processStatus rnti i := by
  obtain ⟨⟨entries, t⟩, hfold, h⟩ := bind_eq_ok.mp h
  have hkept := foldlM_inv
    (P := fun (q : List (ℕ × List ℕ) × NsPfScheduler R) (rest : List (ℕ × List ℕ)) =>
      (∀ entry ∈ rest, entry ∈ s.dlHarqProcessesTimer) ∧
      q.2.processStatus rnti i = s.processStatus rnti i) ?_ ⟨fun _ he => he, rfl⟩ hfold
  · rw [← pure_eq_ok.mp h]
    exact hkept.2
  · rintro q ⟨r, timers⟩ rest q' ⟨hmem, hstatus⟩ hturn
    obtain ⟨⟨timers', u⟩, htimers, hturn⟩ := bind_eq_ok.mp hturn
    rw [← pure_eq_ok.mp hturn]
    refine ⟨fun entry he => hmem entry (List.mem_cons_of_mem _ he), ?_⟩
    have hout : r = rnti → timers[i]? ≠ some 11 := by
      rintro rfl
      exact hno timers (hmem _ List.mem_cons_self)
    exact (refreshTimers_status htimers hout).trans hstatus

theorem releaseProcess_status {r harqId : ℕ} {noStatus : Fault} {noPdus : String}
    (h : s.releaseProcess r harqId noStatus noPdus = .ok s') (hne : ¬ (r = rnti ∧ harqId = i)) :
    s'.processStatus rnti i = s.processStatus rnti i := by
  unfold NsPfScheduler.releaseProcess at h
  obtain ⟨status', hstatus, h⟩ := bind_eq_ok.mp h
  obtain ⟨rlc, -, h⟩ := bind_eq_ok.mp h
  obtain ⟨rlc', -, h⟩ := bind_eq_ok.mp h
  rw [← pure_eq_ok.mp h]
  simp only [NsPfScheduler.processStatus]
  by_cases hr : rnti = r
  · subst hr
    cases hold : s.dlHarqProcessesStatus rnti with
    | none => simp [hold] at hstatus
    | some status =>
      simp only [hold] at hstatus
      obtain ⟨-, rfl⟩ := vecSet_ok hstatus
      rw [Function.update_self, Option.bind_some, Option.bind_some,
        List.getElem?_set_ne fun heq => hne ⟨rfl, heq⟩]
  · rw [Function.update_of_ne hr]

/-- The part of a pass over the feedback that matters to the process `i` of a user: its status, and
its DCI as long as the user has no retransmission. -/
structure Undisturbed (s : NsPfScheduler R) (rnti i : ℕ) (p : HarqPass R) : Prop where
  status : p.sched.processStatus rnti i = s.processStatus rnti i
  dcis : rnti ∉ p.rntiAllocated →
    p.sched.dlHarqProcessesDciBuffer rnti = s.dlHarqProcessesDciBuffer rnti

theorem Undisturbed.release {p : HarqPass R} {t : NsPfScheduler R} {r harqId : ℕ}
    {noStatus : Fault} {noPdus : String} (hp : Undisturbed s rnti i p)
    (h : p.sched.releaseProcess r harqId noStatus noPdus = .ok t)
    (hne : ¬ (r = rnti ∧ harqId = i)) : Undisturbed s rnti i { p with sched := t } := by
  have hstatus := (releaseProcess_status h hne).trans hp.status
  obtain ⟨status, rlc, rfl⟩ := releaseProcess_same h
  exact ⟨hstatus, hp.dcis⟩

theorem harqTurn_cases {rbgNum : ℕ} {p p' : HarqPass R} {info : DlInfo}
    (h : harqTurn rbgNum p info = .ok p') :
    p' = p ∨
      (info.rnti ∉ p.rntiAllocated ∧ ∃ noStatus noPdus t,
        p.sched.releaseProcess info.rnti info.harqProcessId noStatus noPdus = .ok t ∧
        p' = { p with sched := t } ∧
        (¬ info.Nacked ∨ ∃ dcis dci, p.sched.dlHarqProcessesDciBuffer info.rnti = some dcis ∧
          dcis[info.harqProcessId]? = some dci ∧ dci.Exhausted)) ∨
      (p'.rntiAllocated = info.rnti :: p.rntiAllocated ∧ ∃ dcis timers,
        p'.sched = { p.sched with
          dlHarqProcessesDciBuffer :=
            Function.update p.sched.dlHarqProcessesDciBuffer info.rnti (some dcis)
          dlHarqProcessesTimer := timers }) := by
  unfold harqTurn at h
  by_cases hserved : info.rnti ∈ p.rntiAllocated
  · rw [if_pos hserved] at h
    exact .inl (pure_eq_ok.mp h).symm
  · rw [if_neg hserved] at h
    obtain ⟨retx, hretx, h⟩ := bind_eq_ok.mp h
    have hnack := (retxFlags_spec hretx).1
    by_cases hany : retx.any id = true
    · rw [if_pos hany] at h
      obtain ⟨dcis, hdcis, h⟩ := bind_eq_ok.mp h
      obtain ⟨dci, hdci, h⟩ := bind_eq_ok.mp h
      obtain ⟨rv, hrv, h⟩ := bind_eq_ok.mp h
      by_cases hlast : rv = 3
      · rw [if_pos hlast] at h
        obtain ⟨t, hrelease, h⟩ := bind_eq_ok.mp h
        exact .inr (.inl ⟨hserved, _, _, t, hrelease, (pure_eq_ok.mp h).symm, .inr ⟨dcis, dci,
          orFatal_ok hdcis, vecAt_ok hdci, (maxRv_spec hrv).mp hlast⟩⟩)
      · rw [if_neg hlast] at h
        obtain ⟨place, -, h⟩ := bind_eq_ok.mp h
        obtain ⟨rlc, -, h⟩ := bind_eq_ok.mp h
        obtain ⟨newDci, -, h⟩ := bind_eq_ok.mp h
        obtain ⟨pdus, -, h⟩ := bind_eq_ok.mp h
        obtain ⟨t, hstore, h⟩ := bind_eq_ok.mp h
        cases pure_eq_ok.mp h
        exact .inr (.inr ⟨rfl, storeRetx_same hstore⟩)
    · rw [if_neg hany] at h
      obtain ⟨t, hrelease, h⟩ := bind_eq_ok.mp h
      exact .inr (.inl ⟨hserved, _, _, t, hrelease, (pure_eq_ok.mp h).symm,
        .inl fun hn => hany (hnack.mpr hn)⟩)

theorem harqTurn_harqOn {rbgNum : ℕ} {p p' : HarqPass R} {info : DlInfo}
    (h : harqTurn rbgNum p info = .ok p') : p'.sched.harqOn = p.sched.harqOn := by
  rcases harqTurn_cases h with rfl | ⟨-, _, _, t, hrelease, rfl, -⟩ | ⟨-, dcis, timers, hsched⟩
  · rfl
  · obtain ⟨status, rlc, rfl⟩ := releaseProcess_same hrelease
    rfl
  · rw [hsched]

theorem Undisturbed.harqTurn {rbgNum : ℕ} {p p' : HarqPass R} {info : DlInfo}
    (hp : Undisturbed s rnti i p) (h : harqTurn rbgNum p info = .ok p')
    (hno : ¬ (info.rnti = rnti ∧ info.harqProcessId = i ∧
      (¬ info.Nacked ∨ ∃ dcis dci, s.dlHarqProcessesDciBuffer rnti = some dcis ∧
        dcis[i]? = some dci ∧ dci.Exhausted))) : Undisturbed s rnti i p' := by
  rcases harqTurn_cases h with
    rfl | ⟨hserved, _, _, t, hrelease, rfl, hwhy⟩ | ⟨hrntis, dcis, timers, hsched⟩
  · exact hp
  · refine hp.release hrelease ?_
    rintro ⟨rfl, rfl⟩
    rw [hp.dcis hserved] at hwhy
    exact hno ⟨rfl, rfl, hwhy⟩
  · refine ⟨?_, fun hnot => ?_⟩
    · rw [hsched]
      exact hp.status
    · rw [hrntis, List.mem_cons, not_or] at hnot
      rw [hsched, ← hp.dcis hnot.2]
      exact Function.update_of_ne hnot.1 _ _

theorem processDlHarq_harqOn {radio : Radio R} {rbgNum : ℕ} {dlInfoList : List DlInfo}
    {p : HarqPass R} (h : processDlHarq radio rbgNum s dlInfoList = .ok p) :
    p.sched.harqOn = s.harqOn := by
  obtain ⟨s₁, hs₁, hpass⟩ := bind_eq_ok.mp h
  obtain ⟨q, hq, hend⟩ := bind_eq_ok.mp hpass
  obtain ⟨status, timers, rfl⟩ := refreshHarqProcesses_same hs₁
  have hkept : q.sched.harqOn = s.harqOn := by
    refine foldlM_inv (P := fun (p : HarqPass R) _ => p.sched.harqOn = s.harqOn) ?_ rfl hq
    intro p info _ p' hp hturn
    exact (harqTurn_harqOn hturn).trans hp
  rw [← pure_eq_ok.mp hend]
  exact hkept

theorem processDlHarq_status {radio : Radio R} {rbgNum : ℕ} {dlInfoList : List DlInfo}
    {p : HarqPass R} (h : processDlHarq radio rbgNum s dlInfoList = .ok p)
    (hno : ¬ Freed s dlInfoList rnti i) :
    p.sched.processStatus rnti i = s.processStatus rnti i := by
  obtain ⟨s₁, hs₁, hpass⟩ := bind_eq_ok.mp h
  obtain ⟨q, hq, hend⟩ := bind_eq_ok.mp hpass
  rw [Freed, not_or] at hno
  have hstatus : s₁.processStatus rnti i = s.processStatus rnti i :=
    refreshHarqProcesses_status hs₁ fun timers hmem hout => hno.1 ⟨timers, hmem, hout⟩
  obtain ⟨status, timers, rfl⟩ := refreshHarqProcesses_same hs₁
  have hkept := foldlM_inv (P := fun (p : HarqPass R) (rest : List DlInfo) =>
      (∀ info ∈ rest, info ∈ s.feedback dlInfoList) ∧ Undisturbed s rnti i p) ?_
    ⟨fun _ hi => hi, ⟨hstatus, fun _ => rfl⟩⟩ hq
  · rw [← pure_eq_ok.mp hend]
    exact hkept.2.status
  · rintro p info rest p' ⟨hmem, hp⟩ hturn
    refine ⟨fun later hl => hmem later (List.mem_cons_of_mem _ hl), hp.harqTurn hturn ?_⟩
    intro hfreed
    exact hno.2 ⟨info, hmem info List.mem_cons_self, hfreed⟩

end Feedback

section Trigger
variable {radio : Radio R} {s s' : NsPfScheduler R} {dlInfoList : List DlInfo} {rnti i : ℕ}

theorem doSchedDlTriggerReq_parts {build : List BuildData}
    (h : doSchedDlTriggerReq radio s dlInfoList = .ok (s', build)) :
    ∃ rbgNum harq new, processDlHarq radio rbgNum s.refreshDlCqiMaps dlInfoList = .ok harq ∧
      newBlocks radio s dlInfoList = .ok new ∧ build = harq.buildDataList ++ new ∧
      (harq.sched.harqOn = true →
        HandsOut harq.sched s' (new.map fun el => (el.rnti, el.dci.harqProcess))) := by
  unfold doSchedDlTriggerReq at h
  unfold newBlocks
  dsimp only at h ⊢
  cases hsize : getRbgSize s.refreshDlCqiMaps.dlBandwidth with
  | none =>
    rw [hsize] at h
    cases h
  | some rbgSize =>
    rw [hsize] at h
    obtain ⟨harq, hharq, h⟩ := bind_eq_ok.mp h
    refine ⟨s.refreshDlCqiMaps.dlBandwidth / rbgSize, harq, ?_⟩
    by_cases hfull : harq.rbgAllocatedNum = s.refreshDlCqiMaps.dlBandwidth / rbgSize
    · rw [if_pos hfull] at h
      cases pure_eq_ok.mp h
      refine ⟨[], hharq, bind_eq_ok.mpr ⟨harq, hharq, if_pos hfull⟩, ?_, fun _ => ?_⟩
      · rw [List.append_nil]
      · exact .none rfl rfl
    · rw [if_neg hfull] at h
      obtain ⟨⟨t, new⟩, hnew, h⟩ := bind_eq_ok.mp h
      cases pure_eq_ok.mp h
      refine ⟨new, hharq, bind_eq_ok.mpr ⟨harq, hharq, ?_⟩, rfl, fun hon => ?_⟩
      · rw [if_neg hfull]
        exact map_eq_ok.mpr ⟨_, hnew, rfl⟩
      · exact scheduleNewData_handsOut hon hnew

/-- A process that a trigger has no reason to free is not handed out while it is assigned, and it
is assigned afterwards when it was before or is handed out. -/
theorem trigger_process (rnti i : ℕ) {build : List BuildData} (hon : s.harqOn = true)
    (h : doSchedDlTriggerReq radio s dlInfoList = .ok (s', build)) :
    s'.harqOn = true ∧ (assigned radio s dlInfoList).Nodup ∧
      ((rnti, i) ∈ assigned radio s dlInfoList → s'.Busy rnti i) ∧
      (s.Busy rnti i → ¬ Freed s dlInfoList rnti i →
        (rnti, i) ∉ assigned radio s dlInfoList ∧ s'.Busy rnti i) := by
  obtain ⟨rbgNum, harq, new, hharq, hnew, -, hout⟩ := doSchedDlTriggerReq_parts h
  have hassigned : assigned radio s dlInfoList =
      new.map fun el => (el.rnti, el.dci.harqProcess) := by
    rw [assigned, hnew]
  have hharqOn : harq.sched.harqOn = true := (processDlHarq_harqOn hharq).trans hon
  have hout := hout hharqOn
  rw [← hassigned] at hout
  refine ⟨hout.harqOn.trans hharqOn, hout.nodup, fun hin => ⟨1, hout.marked _ hin, by decide⟩, ?_⟩
  rintro ⟨st, hst, hne⟩ hno
  have hkept := (processDlHarq_status hharq hno).trans hst
  have hnot : (rnti, i) ∉ assigned radio s dlInfoList := by
    intro hin
    have hfree := hout.free _ hin
    rw [hkept] at hfree
    exact hne (Option.some.inj hfree)
  exact ⟨hnot, st, (hout.kept _ hnot).trans hkept, hne⟩

end Trigger

section Runs
variable {radio : Radio R} {s s' : NsPfScheduler R} {rnti i : ℕ}

theorem ueConfig_process {r transmissionMode : ℕ} (hbusy : s.Busy rnti i) :
    (s.doCschedUeConfigReq r transmissionMode).Busy rnti i := by
  obtain ⟨st, hst, hne⟩ := hbusy
  refine ⟨st, ?_, hne⟩
  unfold NsPfScheduler.doCschedUeConfigReq
  cases hmode : s.uesTxMode r with
  | some mode => exact hst
  | none =>
    simp only [NsPfScheduler.processStatus] at hst ⊢
    by_cases hr : rnti = r
    · subst hr
      cases hold : s.dlHarqProcessesStatus rnti with
      | none => simp [hold] at hst
      | some status =>
        rw [Function.update_self, Option.getD_some]
        rwa [hold] at hst
    · rwa [Function.update_of_ne hr]

theorem ueRelease_process {r : ℕ} (hr : r ≠ rnti) (hbusy : s.Busy rnti i) :
    (s.doCschedUeReleaseReq r).Busy rnti i := by
  obtain ⟨st, hst, hne⟩ := hbusy
  refine ⟨st, ?_, hne⟩
  simp only [NsPfScheduler.processStatus, NsPfScheduler.doCschedUeReleaseReq] at hst ⊢
  rwa [Function.update_of_ne hr.symm]

structure SameHarq (s s' : NsPfScheduler R) : Prop where
  harqOn : s'.harqOn = s.harqOn
  status : s'.dlHarqProcessesStatus = s.dlHarqProcessesStatus

theorem SameHarq.busy (h : SameHarq s s') (hbusy : s.Busy rnti i) : s'.Busy rnti i := by
  obtain ⟨st, hst, hne⟩ := hbusy
  refine ⟨st, ?_, hne⟩
  rw [NsPfScheduler.processStatus, h.status]
  exact hst

theorem SameHarq.trans {t : NsPfScheduler R} (h : SameHarq s t) (h' : SameHarq t s') :
    SameHarq s s' :=
  ⟨h'.harqOn.trans h.harqOn, h'.status.trans h.status⟩

theorem SameHarq.foldl {α : Type} {step : NsPfScheduler R → α → NsPfScheduler R}
    (h : ∀ t a, SameHarq t (step t a)) (l : List α) (s : NsPfScheduler R) :
    SameHarq s (l.foldl step s) := by
  induction l generalizing s with
  | nil => exact ⟨rfl, rfl⟩
  | cons a rest ih =>
    exact (h s a).trans (ih (step s a))

theorem lcConfig_same {r : ℕ} {reconfigureFlag : Bool} {channels : List LcConfig}
    (h : s.doCschedLcConfigReq radio r reconfigureFlag channels = .ok s') : SameHarq s s' := by
  have hchannels : ∀ (t : NsPfScheduler R) (channel : LcConfig),
      SameHarq t (t.configureChannel r reconfigureFlag channel) := by
    intro t channel
    unfold NsPfScheduler.configureChannel
    dsimp only
    split_ifs
    · exact ⟨rfl, rfl⟩
    · exact ⟨rfl, rfl⟩
  have hflows : ∀ (t : NsPfScheduler R) (channel : LcConfig),
      SameHarq t (t.configureFlow radio r channel) := by
    intro t channel
    unfold NsPfScheduler.configureFlow
    dsimp only
    split_ifs
    · exact ⟨rfl, rfl⟩
    · exact ⟨rfl, rfl⟩
  unfold NsPfScheduler.doCschedLcConfigReq at h
  dsimp only at h
  split_ifs at h with hfits
  cases pure_eq_ok.mp h
  exact (SameHarq.foldl hchannels channels s).trans (.foldl hflows channels _)

theorem lcRelease_same {r : ℕ} {channels : List ℕ}
    (h : s.doCschedLcReleaseReq r channels = .ok s') : SameHarq s s' := by
  refine foldlM_inv (P := fun t _ => SameHarq s t) ?_ ⟨rfl, rfl⟩ h
  intro t lcid _ t' ht hstep
  cases hchannel : t.ueLogicalChannelsConfigList (r, lcid) with
  | none => simp [hchannel] at hstep
  | some bearer =>
    simp only [hchannel] at hstep
    cases pure_eq_ok.mp hstep
    exact ⟨ht.harqOn, ht.status⟩

theorem sliceInfo_same {action : SliceAction} {type : SliceAttr}
    (h : s.updateSliceInfo action type = .ok s') : SameHarq s s' := by
  obtain ⟨slices, -, h⟩ := bind_eq_ok.mp h
  dsimp only at h
  split_ifs at h with hempty hfits
  all_goals
    cases pure_eq_ok.mp h
    exact ⟨rfl, rfl⟩

theorem step_process (rnti i : ℕ) {e : NsPfEvent} (hon : s.harqOn = true)
    (h : s.step radio e = .ok s') :
    s'.harqOn = true ∧ (s.Busy rnti i → ¬ GivesBack s rnti i e → s'.Busy rnti i) := by
  have hsame : SameHarq s s' →
      s'.harqOn = true ∧ (s.Busy rnti i → ¬ GivesBack s rnti i e → s'.Busy rnti i) :=
    fun hs => ⟨hs.harqOn.trans hon, fun hbusy _ => hs.busy hbusy⟩
  cases e with
  | ueConfig r transmissionMode =>
    cases pure_eq_ok.mp h
    refine ⟨?_, fun hbusy _ => ueConfig_process hbusy⟩
    unfold NsPfScheduler.doCschedUeConfigReq
    cases s.uesTxMode r with
    | some mode => exact hon
    | none => exact hon
  | lcConfig r reconfigureFlag channels => exact hsame (lcConfig_same h)
  | lcRelease r channels => exact hsame (lcRelease_same h)
  | ueRelease r =>
    cases pure_eq_ok.mp h
    exact ⟨hon, fun hbusy hno => ueRelease_process hno hbusy⟩
  | rlcBufferReq r lcid req =>
    cases pure_eq_ok.mp h
    exact hsame ⟨rfl, rfl⟩
  | cqiInfo r threshold sbCqi =>
    cases pure_eq_ok.mp h
    exact hsame ⟨rfl, rfl⟩
  | sliceInfo action type => exact hsame (sliceInfo_same h)
  | trigger ffr dlInfoList =>
    obtain ⟨⟨t, build⟩, htrigger, rfl⟩ := map_eq_ok.mp h
    obtain ⟨hon', -, -, hkept⟩ := trigger_process rnti i hon htrigger
    exact ⟨hon', fun hbusy hno => (hkept hbusy hno).2⟩

theorem step_of_enabled {e : NsPfEvent} (h : (NsPfScheduler.machine radio).enabled s e) :
    s.step radio e = .ok ((NsPfScheduler.machine radio).next s e) := by
  obtain ⟨s', hs'⟩ := exists_ok h.1
  rw [hs']
  simp only [NsPfScheduler.machine, hs']

theorem reaches_harqOn {dlBandwidth : ℕ} {es : List NsPfEvent}
    (hrun : (NsPfScheduler.machine radio).Reaches (.start true dlBandwidth) es s) :
    s.harqOn = true := by
  refine hrun.invariant (P := fun s => s.harqOn = true) rfl fun s e hon he => ?_
  exact (step_process 0 0 hon (step_of_enabled he)).1

theorem run_process {es : List NsPfEvent} (hon : s.harqOn = true) (hbusy : s.Busy rnti i)
    (hes : (NsPfScheduler.machine radio).Permits s es)
    (hno : ∀ done e, done ++ [e] <+: es →
      ¬ GivesBack ((NsPfScheduler.machine radio).exec s done) rnti i e) :
    ((NsPfScheduler.machine radio).exec s es).harqOn = true ∧
      ((NsPfScheduler.machine radio).exec s es).Busy rnti i := by
  induction es generalizing s with
  | nil => exact ⟨hon, hbusy⟩
  | cons e es ih =>
    obtain ⟨hon', hkept⟩ := step_process rnti i hon (step_of_enabled hes.1)
    have hfirst : ¬ GivesBack s rnti i e := hno [] e (List.prefix_append [e] es)
    refine ih hon' (hkept hbusy hfirst) hes.2 ?_
    intro done later hdone
    exact hno (e :: done) later (List.cons_prefix_cons.mpr ⟨rfl, hdone⟩)

/-- With HARQ on, a process is there whenever one was found available, a trigger hands each out
once, and a process that is handed out a second time was given back in between. -/
theorem harqProcess_reuse {dlBandwidth : ℕ} {es es' : List NsPfEvent} {ffr ffr' : Ffr}
    {dlInfoList dlInfoList' : List DlInfo}
    (hrun : (NsPfScheduler.machine radio).Reaches (.start true dlBandwidth) es s)
    (hes : (NsPfScheduler.machine radio).Permits s
      (.trigger ffr dlInfoList :: es' ++ [.trigger ffr' dlInfoList'])) :
    (∀ (t : NsPfScheduler R) (rnti : ℕ), t.harqProcessAvailability rnti = .ok true →
      ∃ r, t.updateHarqProcessId rnti = .ok r) ∧
    (assigned { radio with toFfr := ffr } s dlInfoList).Nodup ∧
    ∀ rnti i, (rnti, i) ∈ assigned { radio with toFfr := ffr } s dlInfoList →
      (rnti, i) ∈ assigned { radio with toFfr := ffr' }
        ((NsPfScheduler.machine radio).exec s (.trigger ffr dlInfoList :: es')) dlInfoList' →
      ∃ done e, done ++ [e] <+: es' ++ [.trigger ffr' dlInfoList'] ∧
        GivesBack ((NsPfScheduler.machine radio).exec s (.trigger ffr dlInfoList :: done))
          rnti i e := by
  have hon : s.harqOn = true := reaches_harqOn hrun
  have hstep := step_of_enabled hes.1
  obtain ⟨⟨s₁, build⟩, htrigger, hs₁⟩ := map_eq_ok.mp hstep
  refine ⟨fun t rnti h => updateHarqProcessId_of_availability h,
    (trigger_process 0 0 hon htrigger).2.1, fun rnti i hfirst hagain => ?_⟩
  obtain ⟨hon₁, -, hmarked, -⟩ := trigger_process rnti i hon htrigger
  have hbusy : ((NsPfScheduler.machine radio).next s (.trigger ffr dlInfoList)).Busy rnti i := by
    rw [← hs₁]
    exact hmarked hfirst
  have hrest := hes.2
  rw [← hs₁] at hrest hbusy
  have hexec : ∀ done, (NsPfScheduler.machine radio).exec s (.trigger ffr dlInfoList :: done) =
      (NsPfScheduler.machine radio).exec s₁ done := by
    intro done
    rw [Machine.exec, List.foldl_cons, ← hs₁]
    rfl
  by_contra hnone
  have hno : ∀ done e, done ++ [e] <+: es' ++ [.trigger ffr' dlInfoList'] →
      ¬ GivesBack ((NsPfScheduler.machine radio).exec s₁ done) rnti i e := by
    intro done e hdone hback
    exact hnone ⟨done, e, hdone, (hexec done).symm ▸ hback⟩
  have hpre : es' <+: es' ++ [.trigger ffr' dlInfoList'] := List.prefix_append _ _
  obtain ⟨hon', hbusy'⟩ := run_process hon₁ hbusy (hrest.of_prefix hpre)
    fun done e hdone => hno done e (hdone.trans hpre)
  obtain ⟨t, ht, henabled, -⟩ := hrest.reaches.last
  obtain rfl := ht.eq_exec
  obtain ⟨⟨t', build'⟩, htrigger', -⟩ := map_eq_ok.mp (step_of_enabled henabled)
  have hkept := (trigger_process rnti i hon' htrigger').2.2.2 hbusy'
    (hno es' _ (List.prefix_refl _))
  rw [hexec] at hagain
  exact hkept.1 hagain

def oneUser : List NsPfEvent :=
  [.ueConfig 1 0, .lcConfig 1 false [⟨3, .nonGbr, 0, 0⟩], .rlcBufferReq 1 3 ⟨100000, 0, 0⟩]

/-- The first block is received, and six more are sent. -/
def sevenBlocks : List NsPfEvent :=
  .trigger (openFfr 6) [⟨1, 1, [.ack]⟩] :: List.replicate 6 (.trigger (openFfr 6) [])

/-- The first process is handed out again after all others. -/
theorem harqProcess_reuse_oneUser :
    ∃ done e, done ++ [e] <+: sevenBlocks ++ [.trigger (openFfr 6) []] ∧
      GivesBack ((NsPfScheduler.machine (exactRadio 6)).exec
        ((NsPfScheduler.machine (exactRadio 6)).exec (.start true 6) oneUser)
        (.trigger (openFfr 6) [] :: done)) 1 1 e := by
  have hrun : (NsPfScheduler.machine (exactRadio 6)).Permits (.start true 6) oneUser := by
    decide +kernel
  have hes : (NsPfScheduler.machine (exactRadio 6)).Permits
      ((NsPfScheduler.machine (exactRadio 6)).exec (.start true 6) oneUser)
      (.trigger (openFfr 6) [] :: sevenBlocks ++ [.trigger (openFfr 6) []]) := by
    decide +kernel
  exact (harqProcess_reuse hrun.reaches hes).2.2 1 1 (by decide +kernel) (by decide +kernel)

/-- Without HARQ every block has process 0, and nothing gives it back. -/
theorem harqProcess_reuse_off :
    ¬ ∀ (radio : Radio ℚ) (harqOn : Bool) (dlBandwidth : ℕ) (es es' : List NsPfEvent)
      (s : NsPfScheduler ℚ) (ffr ffr' : Ffr) (dlInfoList dlInfoList' : List DlInfo) (rnti i : ℕ),
      (NsPfScheduler.machine radio).Reaches (.start harqOn dlBandwidth) es s →
      (NsPfScheduler.machine radio).Permits s
        (.trigger ffr dlInfoList :: es' ++ [.trigger ffr' dlInfoList']) →
      (rnti, i) ∈ assigned { radio with toFfr := ffr } s dlInfoList →
      (rnti, i) ∈ assigned { radio with toFfr := ffr' }
        ((NsPfScheduler.machine radio).exec s (.trigger ffr dlInfoList :: es')) dlInfoList' →
      ∃ done e, done ++ [e] <+: es' ++ [.trigger ffr' dlInfoList'] ∧
        GivesBack ((NsPfScheduler.machine radio).exec s (.trigger ffr dlInfoList :: done))
          rnti i e := by
  intro hall
  have hrun : (NsPfScheduler.machine (exactRadio 6)).Permits (.start false 6) oneUser := by
    decide +kernel
  obtain ⟨done, e, hdone, hback⟩ := hall (exactRadio 6) false 6 oneUser [] _ (openFfr 6)
    (openFfr 6) [] [] 1 0 hrun.reaches (by decide +kernel) (by decide +kernel) (by decide +kernel)
  obtain ⟨rfl, rfl⟩ : done = [] ∧ e = .trigger (openFfr 6) [] := by
    cases done with
    | nil => exact ⟨rfl, (List.cons_prefix_cons.mp hdone).1⟩
    | cons d done =>
      have hlen := hdone.length_le
      simp at hlen
  rcases hback with ⟨timers, hmem, hout⟩ | ⟨info, hinfo, -⟩
  · have htimers : ((NsPfScheduler.machine (exactRadio 6)).exec
        ((NsPfScheduler.machine (exactRadio 6)).exec (.start false 6) oneUser)
        [.trigger (openFfr 6) []]).dlHarqProcessesTimer = [(1, List.replicate 8 1)] := by
      decide +kernel
    rw [htimers, List.mem_singleton] at hmem
    obtain rfl := (Prod.mk.inj hmem).2
    cases hout
  · have hfeedback : ((NsPfScheduler.machine (exactRadio 6)).exec
        ((NsPfScheduler.machine (exactRadio 6)).exec (.start false 6) oneUser)
        [.trigger (openFfr 6) []]).feedback [] = [] := by
      decide +kernel
    rw [hfeedback] at hinfo
    cases hinfo

end Runs
end NetGymSim.Gma

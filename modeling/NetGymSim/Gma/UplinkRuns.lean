import Mathlib.Data.Rat.Defs
import Mathlib.Algebra.Field.Rat
import NetGymSim.Gma.UplinkRanges
import NetGymSim.Lib.Machine

/-!
# Runs of the uplink scheduler

The requests that an uplink trigger depends on, in any order with triggers in between. Between two
of them the next user has a report or is not chosen yet, and the map of the random access grants
is as wide as the cell: that is what a trigger needs.
-/

namespace NetGymSim.Gma
open NetGymSim.Lib

def resize (l : List ℕ) (n : ℕ) : List ℕ := l.take n ++ List.replicate (n - l.length) 0

@[simp] theorem length_resize (l : List ℕ) (n : ℕ) : (resize l n).length = n := by
  rw [resize, List.length_append, List.length_take, List.length_replicate]
  omega

def emptyUlDci : UlDci := ⟨65535, 255, 255, 65535, 255, 255⟩

/-- The SINRs are whatever the CQI reports have made of them, and a DL trigger comes with the
grants it gave for random access. -/
inductive NsPfUlEvent (R : Type)
  | cellConfig (ulBandwidth : ℕ)
  | ueConfig (rnti : ℕ)
  | ueRelease (rnti : ℕ)
  | macCtrlInfo (macCeList : List (ℕ × ℕ))
  | cqiInfo (ueCqi : ℕ → Option (List R)) (ueCqiTimers : ℕ → Option ℕ)
  | dlTrigger (grants : List UlDci)
  | ulTrigger (ffr : UlFfr) (ulInfoList : List UlInfo)

/-- The bandwidth of a device is a `uint8_t` attribute. -/
def NsPfUlEvent.Valid {R : Type} : NsPfUlEvent R → Prop
  | .cellConfig ulBandwidth => ulBandwidth < 256
  | _ => True

instance {R : Type} (e : NsPfUlEvent R) : Decidable e.Valid :=
  match e with
  | .cellConfig ulBandwidth => inferInstanceAs (Decidable (ulBandwidth < 256))
  | .ueConfig _ | .ueRelease _ | .macCtrlInfo _ | .cqiInfo _ _ | .dlTrigger _ | .ulTrigger _ _ =>
      inferInstanceAs (Decidable True)

namespace NsPfUplink
variable {R : Type}

def doCschedCellConfigReq (s : NsPfUplink R) (ulBandwidth : ℕ) : NsPfUplink R :=
  { s with
    ulBandwidth := ulBandwidth
    rachAllocationMap := resize s.rachAllocationMap ulBandwidth }

/-- `insert` keeps the entries of a user that is there. -/
def doCschedUeConfigReq (s : NsPfUplink R) (rnti : ℕ) : NsPfUplink R :=
  { s with
    ulHarqCurrentProcessId := Function.update s.ulHarqCurrentProcessId rnti
      (some ((s.ulHarqCurrentProcessId rnti).getD 0))
    ulHarqProcessesStatus := Function.update s.ulHarqProcessesStatus rnti
      (some ((s.ulHarqProcessesStatus rnti).getD (List.replicate 8 0)))
    ulHarqProcessesDciBuffer := Function.update s.ulHarqProcessesDciBuffer rnti
      (some ((s.ulHarqProcessesDciBuffer rnti).getD (List.replicate 8 emptyUlDci))) }

def doCschedUeReleaseReq (s : NsPfUplink R) (rnti : ℕ) : NsPfUplink R :=
  { s with
    ulHarqCurrentProcessId := Function.update s.ulHarqCurrentProcessId rnti none
    ulHarqProcessesStatus := Function.update s.ulHarqProcessesStatus rnti none
    ulHarqProcessesDciBuffer := Function.update s.ulHarqProcessesDciBuffer rnti none
    ceBsrRxed := OrderedMap.erase s.ceBsrRxed rnti
    nextRntiUl := if s.nextRntiUl = rnti then 0 else s.nextRntiUl }

def doSchedUlMacCtrlInfoReq (s : NsPfUplink R) (macCeList : List (ℕ × ℕ)) : NsPfUplink R :=
  { s with ceBsrRxed := macCeList.foldl (fun ceBsrRxed ce =>
      OrderedMap.upsert (· < ·) ce.1 (fun _ => ce.2) ceBsrRxed) s.ceBsrRxed }

def grantRach (s : NsPfUplink R) (grant : UlDci) : Except Fault (NsPfUplink R) := do
  let rachAllocationMap ← grant.rbs.foldlM (fun map i => vecSet map i grant.rnti)
    s.rachAllocationMap
  let s := { s with rachAllocationMap := rachAllocationMap }
  if s.harqOn then do
    let harqId ← orFatal (s.ulHarqCurrentProcessId grant.rnti)
      "No info find in HARQ buffer for UE " grant.rnti
    let dcis ← orFatal (s.ulHarqProcessesDciBuffer grant.rnti)
      "Unable to find RNTI entry in UL DCI HARQ buffer for RNTI " grant.rnti
    let dcis ← vecSet dcis harqId grant
    pure { s with ulHarqProcessesDciBuffer :=
      Function.update s.ulHarqProcessesDciBuffer grant.rnti (some dcis) }
  else pure s

/-- What `DoSchedDlTriggerReq` does for the uplink. -/
def doSchedDlTriggerReq (s : NsPfUplink R) (grants : List UlDci) :
    Except Fault (NsPfUplink R) :=
  grants.foldlM grantRach { s with
    ulHarqCurrentProcessId := fun rnti =>
      (s.ulHarqCurrentProcessId rnti).map fun processId => (processId + 1) % 8
    rachAllocationMap := resize s.rachAllocationMap s.ulBandwidth }

def step (radio : UlRadio R) (s : NsPfUplink R) : NsPfUlEvent R → Except Fault (NsPfUplink R)
  | .cellConfig ulBandwidth => pure (s.doCschedCellConfigReq ulBandwidth)
  | .ueConfig rnti => pure (s.doCschedUeConfigReq rnti)
  | .ueRelease rnti => pure (s.doCschedUeReleaseReq rnti)
  | .macCtrlInfo macCeList => pure (s.doSchedUlMacCtrlInfoReq macCeList)
  | .cqiInfo ueCqi ueCqiTimers => pure { s with ueCqi := ueCqi, ueCqiTimers := ueCqiTimers }
  | .dlTrigger grants => s.doSchedDlTriggerReq grants
  | .ulTrigger ffr ulInfoList =>
      (doSchedUlTriggerReq { radio with toUlFfr := ffr } s ulInfoList).map Prod.fst

def machine (radio : UlRadio R) : Machine (NsPfUplink R) (NsPfUlEvent R) where
  enabled s e := (s.step radio e).isOk = true ∧ e.Valid
  next s e :=
    match s.step radio e with
    | .ok s' => s'
    | .error _ => s

instance (radio : UlRadio R) (s : NsPfUplink R) (e : NsPfUlEvent R) :
    Decidable ((machine radio).enabled s e) :=
  inferInstanceAs (Decidable ((s.step radio e).isOk = true ∧ e.Valid))

variable {radio : UlRadio R} {s s' : NsPfUplink R}

theorem mem_users_upsert {m : List (ℕ × ℕ)} {k bytes rnti : ℕ} (h : rnti ∈ m.map Prod.fst) :
    rnti ∈ (OrderedMap.upsert (· < ·) k (fun _ => bytes) m).map Prod.fst := by
  induction m with
  | nil => cases h
  | cons entry rest ih =>
    obtain ⟨k', v⟩ := entry
    unfold OrderedMap.upsert
    split_ifs with hlt heq
    · exact List.mem_cons_of_mem _ h
    · rwa [heq]
    · rcases List.mem_cons.mp h with hk | hrest
      · exact List.mem_cons.mpr (.inl hk)
      · exact List.mem_cons_of_mem _ (ih hrest)

theorem Ready.macCtrlInfo (hs : s.Ready) (macCeList : List (ℕ × ℕ)) :
    (s.doSchedUlMacCtrlInfoReq macCeList).Ready := by
  refine ⟨hs.bandwidth, hs.rach, hs.next.imp id fun hmem => ?_⟩
  unfold doSchedUlMacCtrlInfoReq
  induction macCeList generalizing s with
  | nil => exact hmem
  | cons ce rest ih =>
    have hone : (s.doSchedUlMacCtrlInfoReq [ce]).Ready :=
      ⟨hs.bandwidth, hs.rach, .inr (mem_users_upsert hmem)⟩
    exact ih hone (mem_users_upsert hmem)

theorem Ready.ueRelease (hs : s.Ready) (rnti : ℕ) : (s.doCschedUeReleaseReq rnti).Ready := by
  refine ⟨hs.bandwidth, hs.rach, ?_⟩
  unfold doCschedUeReleaseReq
  by_cases hnext : s.nextRntiUl = rnti
  · exact .inl (if_pos hnext)
  · simp only [if_neg hnext]
    refine hs.next.imp id fun hmem => ?_
    obtain ⟨entry, hentry, hfst⟩ := List.mem_map.mp hmem
    refine List.mem_map.mpr ⟨entry, List.mem_filter.mpr ⟨hentry, ?_⟩, hfst⟩
    rw [hfst]
    exact decide_eq_true hnext

theorem grantRach_ready {grant : UlDci} (hs : s.Ready) (h : s.grantRach grant = .ok s') :
    s'.Ready := by
  obtain ⟨map, hmap, h⟩ := bind_eq_ok.mp h
  have hlength : map.length = s.ulBandwidth := (foldlM_vecSet_length hmap).trans hs.rach
  dsimp only at h
  by_cases hon : s.harqOn = true
  · rw [if_pos hon] at h
    obtain ⟨harqId, -, h⟩ := bind_eq_ok.mp h
    obtain ⟨dcis, -, h⟩ := bind_eq_ok.mp h
    obtain ⟨dcis', -, h⟩ := bind_eq_ok.mp h
    cases pure_eq_ok.mp h
    exact ⟨hs.bandwidth, hlength, hs.next⟩
  · rw [if_neg hon] at h
    cases pure_eq_ok.mp h
    exact ⟨hs.bandwidth, hlength, hs.next⟩

theorem step_ready (hs : s.Ready) {e : NsPfUlEvent R} (he : e.Valid)
    (h : s.step radio e = .ok s') : s'.Ready := by
  cases e with
  | cellConfig ulBandwidth =>
    cases pure_eq_ok.mp h
    exact ⟨he, length_resize _ _, hs.next⟩
  | ueConfig rnti =>
    cases pure_eq_ok.mp h
    exact ⟨hs.bandwidth, hs.rach, hs.next⟩
  | ueRelease rnti =>
    cases pure_eq_ok.mp h
    exact hs.ueRelease rnti
  | macCtrlInfo macCeList =>
    cases pure_eq_ok.mp h
    exact hs.macCtrlInfo macCeList
  | cqiInfo ueCqi ueCqiTimers =>
    cases pure_eq_ok.mp h
    exact ⟨hs.bandwidth, hs.rach, hs.next⟩
  | dlTrigger grants =>
    refine foldlM_inv (P := fun s _ => Ready s) ?_ ?_ h
    · intro s grant rest s' hready hgrant
      exact grantRach_ready hready hgrant
    · exact ⟨hs.bandwidth, length_resize _ _, hs.next⟩
  | ulTrigger ffr ulInfoList =>
    obtain ⟨⟨s₁, dcis⟩, htrigger, rfl⟩ := map_eq_ok.mp h
    exact (doSchedUlTriggerReq_spec hs htrigger).1

theorem start_ready (harqOn : Bool) : (start (R := R) harqOn 0).Ready :=
  ⟨Nat.succ_pos _, rfl, .inl rfl⟩

theorem reaches_ready {harqOn : Bool} {es : List (NsPfUlEvent R)}
    (hrun : (machine radio).Reaches (start harqOn 0) es s) : s.Ready := by
  refine hrun.invariant (start_ready harqOn) fun s e hs he => ?_
  obtain ⟨s', hstep⟩ := exists_ok he.1
  have hnext : (machine radio).next s e = s' := by
    simp only [machine, hstep]
  rw [hnext]
  exact step_ready hs he.2 hstep

/-- The uplink trigger comes to an end, and its DCIs share no RB and lie in the cell. -/
theorem doSchedUlTriggerReq_ranges {harqOn : Bool} {es : List (NsPfUlEvent R)}
    (hrun : (machine radio).Reaches (start harqOn 0) es s) (ffr : UlFfr)
    (ulInfoList : List UlInfo) :
    Leaves (doSchedUlTriggerReq { radio with toUlFfr := ffr } s ulInfoList) ∧
      ∀ s' dcis, doSchedUlTriggerReq { radio with toUlFfr := ffr } s ulInfoList = .ok (s', dcis) →
        (∀ dci ∈ dcis, ∀ j ∈ dci.rbs, j < s.ulBandwidth) ∧
          dcis.Pairwise fun a b => a.rbs.Disjoint b.rbs := by
  have hs : s.Ready := reaches_ready hrun
  refine ⟨doSchedUlTriggerReq_leaves _ hs ulInfoList, fun s' dcis h => ?_⟩
  exact (doSchedUlTriggerReq_spec hs h).2

def exactUlRadio : UlRadio ℚ where
  availableUlRbg := List.replicate 25 false
  minContinuousUlBandwidth := 25
  isUlRbgAvailableForUe _ _ := true
  isNoSinr sinr := sinr = -5000
  averageSinr sinrs := sinrs.sum / sinrs.length
  lt a b := decide (a < b)
  cqi sinr := if sinr < 0 then 0 else 15
  getMcsFromCqi cqi := cqi
  getUlTbSizeFromMcs _ nprb := 96 * nprb

def twoUsersUl : List (NsPfUlEvent ℚ) :=
  [.cellConfig 25, .ueConfig 1, .ueConfig 2, .macCtrlInfo [(1, 500), (2, 500)],
    .ulTrigger exactUlRadio.toUlFfr []] ++ List.replicate 7 (.dlTrigger [])

theorem doSchedUlTriggerReq_ranges_twoUsers :
    ((doSchedUlTriggerReq exactUlRadio
        ((machine exactUlRadio).exec (start true 0) twoUsersUl) [⟨1, .notOk⟩]).map fun r =>
          r.2.map fun dci => (dci.rnti, dci.rbStart, dci.rbLen)) =
        .ok [(1, 0, 12), (2, 12, 12)] ∧
      Leaves (doSchedUlTriggerReq exactUlRadio
        ((machine exactUlRadio).exec (start true 0) twoUsersUl) [⟨1, .notOk⟩]) := by
  have hrun : (machine exactUlRadio).Permits (start true 0) twoUsersUl := by decide +kernel
  exact ⟨by decide +kernel,
    (doSchedUlTriggerReq_ranges hrun.reaches exactUlRadio.toUlFfr [⟨1, .notOk⟩]).1⟩

end NsPfUplink
end NetGymSim.Gma

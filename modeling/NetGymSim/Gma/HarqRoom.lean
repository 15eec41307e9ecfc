import NetGymSim.Gma.RbgGrants

/-!
# Room for the retransmissions of a TTI

`retxDue` lists the RBGs of the retransmissions that are due, in the order of the
feedback, and `HasRoom` places them one after the other: in their own RBGs, or in as
many free ones after the last of these. While there is room no RBG is given away
twice. The first retransmission without room is stored and built all the same.
-/

namespace NetGymSim.Gma
open NetGymSim.Lib

def freeAfter (rbgNum : ℕ) (rbgMap : List Bool) (startRbg : ℕ) : List ℕ :=
  (cyclicFrom rbgNum startRbg ((startRbg + 1) % rbgNum) rbgNum).filter (FreeRbg rbgMap)

def HasRoom (rbgNum : ℕ) : List Bool → List (List ℕ) → Prop
  | _, [] => True
  | rbgMap, rbgs :: rest =>
      let others := freeAfter rbgNum rbgMap (rbgs.getLastD 0)
      if ∀ r ∈ rbgs, FreeRbg rbgMap r then HasRoom rbgNum (reserve rbgMap rbgs) rest
      else rbgs.length ≤ others.length ∧
        HasRoom rbgNum (reserve rbgMap (others.take rbgs.length)) rest

instance HasRoom.decidable (rbgNum : ℕ) : (rbgMap : List Bool) → (due : List (List ℕ)) →
    Decidable (HasRoom rbgNum rbgMap due)
  | _, [] => inferInstanceAs (Decidable True)
  | rbgMap, rbgs :: rest =>
      have := HasRoom.decidable rbgNum (reserve rbgMap rbgs) rest
      have := HasRoom.decidable rbgNum (reserve rbgMap
        ((freeAfter rbgNum rbgMap (rbgs.getLastD 0)).take rbgs.length)) rest
      inferInstanceAs (Decidable (if ∀ r ∈ rbgs, FreeRbg rbgMap r then
          HasRoom rbgNum (reserve rbgMap rbgs) rest
        else rbgs.length ≤ (freeAfter rbgNum rbgMap (rbgs.getLastD 0)).length ∧
          HasRoom rbgNum (reserve rbgMap
            ((freeAfter rbgNum rbgMap (rbgs.getLastD 0)).take rbgs.length)) rest))

theorem hasRoom_cons (rbgNum : ℕ) (rbgMap : List Bool) (rbgs : List ℕ) (rest : List (List ℕ)) :
    HasRoom rbgNum rbgMap (rbgs :: rest) ↔
      if ∀ r ∈ rbgs, FreeRbg rbgMap r then HasRoom rbgNum (reserve rbgMap rbgs) rest
      else rbgs.length ≤ (freeAfter rbgNum rbgMap (rbgs.getLastD 0)).length ∧
        HasRoom rbgNum (reserve rbgMap
          ((freeAfter rbgNum rbgMap (rbgs.getLastD 0)).take rbgs.length)) rest :=
  Iff.rfl

def DlInfo.Nacked (info : DlInfo) : Prop := HarqStatus.nack ∈ info.harqStatus.take 2

instance (info : DlInfo) : Decidable info.Nacked :=
  inferInstanceAs (Decidable (HarqStatus.nack ∈ info.harqStatus.take 2))

def DlDci.Exhausted (dci : DlDci) : Prop := (dci.rv.take 2).foldr max 0 = 3

instance (dci : DlDci) : Decidable dci.Exhausted :=
  inferInstanceAs (Decidable ((dci.rv.take 2).foldr max 0 = 3))

def retxDue (dcis : ℕ → Option (List DlDci)) : List ℕ → List DlInfo → List (List ℕ)
  | _, [] => []
  | served, info :: rest =>
      if info.rnti ∈ served ∨ ¬ info.Nacked then retxDue dcis served rest
      else
        match (dcis info.rnti).bind (·[info.harqProcessId]?) with
        | none => retxDue dcis served rest
        | some dci =>
            if dci.Exhausted then retxDue dcis served rest
            else dciRbgs dci.rbBitmap :: retxDue dcis (info.rnti :: served) rest

variable {R : Type}

theorem retxFlags_spec {info : DlInfo} {retx : List Bool} (h : retxFlags info = .ok retx) :
    (retx.any id = true ↔ info.Nacked) ∧ 0 < info.harqStatus.length := by
  unfold retxFlags at h
  by_cases hone : info.harqStatus.length = 1
  · rw [if_pos hone] at h
    obtain ⟨status, hat, h⟩ := bind_eq_ok.mp h
    cases pure_eq_ok.mp h
    obtain ⟨st, hst⟩ := List.length_eq_one_iff.mp hone
    have hget := vecAt_ok hat
    rw [hst] at hget
    cases hget
    refine ⟨?_, by omega⟩
    rw [DlInfo.Nacked, hst]
    simp only [List.take_succ_cons, List.take_nil, List.mem_cons, List.not_mem_nil, or_false,
      List.any_cons, List.any_nil, id, Bool.or_false, decide_eq_true_eq]
    exact eq_comm
  · rw [if_neg hone] at h
    obtain ⟨status0, hat0, h⟩ := bind_eq_ok.mp h
    obtain ⟨status1, hat1, h⟩ := bind_eq_ok.mp h
    cases pure_eq_ok.mp h
    have hget0 := vecAt_ok hat0
    have hget1 := vecAt_ok hat1
    obtain ⟨s, t, rest, hl⟩ : ∃ s t rest, info.harqStatus = s :: t :: rest := by
      cases hl : info.harqStatus with
      | nil => simp [hl] at hget0
      | cons s tail =>
        cases tail with
        | nil => simp [hl] at hget1
        | cons t rest => exact ⟨s, t, rest, rfl⟩
    rw [hl] at hget0 hget1
    cases hget0
    cases hget1
    constructor
    · rw [DlInfo.Nacked, hl]
      simp only [List.take_succ_cons, List.take_zero, List.mem_cons, List.not_mem_nil, or_false,
        List.any_cons, List.any_nil, id, Bool.or_false, Bool.or_eq_true, decide_eq_true_eq]
      exact or_congr eq_comm eq_comm
    · simp [hl]

theorem maxRv_spec {dci : DlDci} {rv : ℕ} (h : maxRv dci.rv = .ok rv) :
    rv = 3 ↔ dci.Exhausted := by
  unfold maxRv at h
  unfold DlDci.Exhausted
  by_cases hone : dci.rv.length = 1
  · rw [if_pos hone] at h
    obtain ⟨r, hr⟩ := List.length_eq_one_iff.mp hone
    have hget := vecAt_ok h
    rw [hr] at hget
    cases hget
    simp [hr]
  · rw [if_neg hone] at h
    obtain ⟨rv0, hat0, h⟩ := bind_eq_ok.mp h
    obtain ⟨rv1, hat1, h⟩ := bind_eq_ok.mp h
    cases pure_eq_ok.mp h
    have hget0 := vecAt_ok hat0
    have hget1 := vecAt_ok hat1
    obtain ⟨s, t, rest, hl⟩ : ∃ s t rest, dci.rv = s :: t :: rest := by
      cases hl : dci.rv with
      | nil => simp [hl] at hget0
      | cons s tail =>
        cases tail with
        | nil => simp [hl] at hget1
        | cons t rest => exact ⟨s, t, rest, rfl⟩
    rw [hl] at hget0 hget1
    cases hget0
    cases hget1
    simp [hl]

theorem placeRetx_spec {rbgNum : ℕ} {flowKnown : Bool} {dci : DlDci} {rnti : ℕ}
    {rbgMap : List Bool} {num : ℕ} {place : Placement}
    (h : placeRetx rbgNum flowKnown dci rnti rbgMap num = .ok place) :
    let rbgs := dciRbgs dci.rbBitmap
    let others := freeAfter rbgNum rbgMap (rbgs.getLastD 0)
    (∀ r ∈ rbgs, FreeRbg rbgMap r) ∧
        place = ⟨dci, reserve rbgMap rbgs, num + rbgs.length, false⟩ ∨
      ¬ (∀ r ∈ rbgs, FreeRbg rbgMap r) ∧ rbgs.length ≤ others.length ∧
        place = ⟨{ dci with rbBitmap := rbgMask (others.take rbgs.length) },
          reserve rbgMap (others.take rbgs.length), num + rbgs.length, false⟩ ∨
      ¬ (∀ r ∈ rbgs, FreeRbg rbgMap r) ∧ others.length < rbgs.length ∧
        place = ⟨dci, rbgMap, num, true⟩ := by
  intro rbgs others
  unfold placeRetx at h
  obtain ⟨free, hfree, h⟩ := bind_eq_ok.mp h
  have hspec := allFree_spec hfree
  by_cases hf : free = true
  · rw [if_pos hf] at h
    obtain ⟨_, _, h⟩ := bind_eq_ok.mp h
    exact .inl ⟨hspec.mp hf, (pure_eq_ok.mp h).symm⟩
  · rw [if_neg hf] at h
    have hbusy : ¬ ∀ r ∈ rbgs, FreeRbg rbgMap r := fun hall => hf (hspec.mpr hall)
    by_cases hnum : rbgNum = 0
    · rw [if_pos hnum] at h
      cases h
    · rw [if_neg hnum] at h
      obtain ⟨⟨rbgMapCopy, found⟩, hfind, h⟩ := bind_eq_ok.mp h
      dsimp only at h
      obtain ⟨hfound, hmap⟩ := findRbgs_spec (Nat.mod_lt _ (by omega)) le_rfl (Nat.zero_le _) hfind
      rw [List.length_nil, List.nil_append, Nat.sub_zero] at hfound
      rw [List.length_nil, Nat.sub_zero] at hmap
      have hfound' : found = others.take rbgs.length := hfound
      have hmap' : rbgMapCopy = reserve rbgMap (others.take rbgs.length) := hmap
      have hlen : found.length = min rbgs.length others.length := by
        rw [hfound', List.length_take]
      by_cases henough : found.length = (dciRbgs dci.rbBitmap).length
      · rw [if_pos henough] at h
        obtain ⟨_, _, h⟩ := bind_eq_ok.mp h
        refine .inr (.inl ⟨hbusy, ?_, ?_⟩)
        · have : found.length = rbgs.length := henough
          omega
        · rw [← pure_eq_ok.mp h, henough, hfound', hmap']
      · rw [if_neg henough] at h
        refine .inr (.inr ⟨hbusy, ?_, (pure_eq_ok.mp h).symm⟩)
        have : ¬ found.length = rbgs.length := henough
        omega

theorem retxLayer_spec {retx : List Bool} {dci dci' : DlDci} {j : ℕ}
    (h : retxLayer retx dci j = .ok dci') :
    dci'.rbBitmap = dci.rbBitmap ∧ 0 ∈ dci'.ndi := by
  have hset : ∀ {ndi : List ℕ}, vecSet dci.ndi j 0 = .ok ndi → 0 ∈ ndi := by
    intro ndi hndi
    obtain ⟨hlt, rfl⟩ := vecSet_ok hndi
    exact List.mem_set hlt 0
  unfold retxLayer at h
  obtain ⟨again, _, h⟩ := bind_eq_ok.mp h
  by_cases hagain : again = true
  · rw [if_pos hagain] at h
    by_cases hlen : dci.ndi.length ≤ j
    · rw [if_pos hlen] at h
      cases pure_eq_ok.mp h
      exact ⟨rfl, by simp⟩
    · rw [if_neg hlen] at h
      obtain ⟨ndi, hndi, h⟩ := bind_eq_ok.mp h
      obtain ⟨_, _, h⟩ := bind_eq_ok.mp h
      cases pure_eq_ok.mp h
      exact ⟨rfl, hset hndi⟩
  · rw [if_neg hagain] at h
    obtain ⟨ndi, hndi, h⟩ := bind_eq_ok.mp h
    obtain ⟨_, _, h⟩ := bind_eq_ok.mp h
    obtain ⟨_, _, h⟩ := bind_eq_ok.mp h
    obtain ⟨_, _, h⟩ := bind_eq_ok.mp h
    cases pure_eq_ok.mp h
    exact ⟨rfl, hset hndi⟩

theorem retxLayers_spec {retx : List Bool} {dci dci' : DlDci} {layers : List ℕ}
    (hne : layers ≠ []) (h : layers.foldlM (retxLayer retx) dci = .ok dci') :
    dci'.rbBitmap = dci.rbBitmap ∧ 0 ∈ dci'.ndi := by
  cases layers with
  | nil => exact absurd rfl hne
  | cons j rest =>
    rw [List.foldlM_cons, bind_eq_ok] at h
    obtain ⟨first, hfirst, h⟩ := h
    exact foldlM_inv (P := fun d _ => d.rbBitmap = dci.rbBitmap ∧ 0 ∈ d.ndi)
      (fun d j _ d' hd hj => ⟨(retxLayer_spec hj).1.trans hd.1, (retxLayer_spec hj).2⟩)
      (retxLayer_spec hfirst) h

theorem releaseProcess_same {s s' : NsPfScheduler R} {rnti harqId : ℕ} {noStatus : Fault}
    {noPdus : String} (h : s.releaseProcess rnti harqId noStatus noPdus = .ok s') :
    ∃ status rlc, s' = { s with
      dlHarqProcessesStatus := status, dlHarqProcessesRlcPduListBuffer := rlc } := by
  unfold NsPfScheduler.releaseProcess at h
  obtain ⟨_, _, h⟩ := bind_eq_ok.mp h
  obtain ⟨_, _, h⟩ := bind_eq_ok.mp h
  obtain ⟨_, _, h⟩ := bind_eq_ok.mp h
  exact ⟨_, _, (pure_eq_ok.mp h).symm⟩

theorem storeRetx_same {s s' : NsPfScheduler R} {rnti harqId : ℕ} {dcis : List DlDci}
    {rv : List ℕ} (h : s.storeRetx rnti harqId dcis rv = .ok s') :
    ∃ dcis timers, s' = { s with
      dlHarqProcessesDciBuffer := Function.update s.dlHarqProcessesDciBuffer rnti (some dcis)
      dlHarqProcessesTimer := timers } := by
  unfold NsPfScheduler.storeRetx at h
  obtain ⟨_, _, h⟩ := bind_eq_ok.mp h
  obtain ⟨_, _, h⟩ := bind_eq_ok.mp h
  obtain ⟨_, _, h⟩ := bind_eq_ok.mp h
  exact ⟨_, _, (pure_eq_ok.mp h).symm⟩

/-- The parts of the scheduler that neither HARQ nor the building of the DCIs changes: the feedback
that is stored, the slices, the transmission modes, the slice and the average of each user. -/
structure SameUsers (s s' : NsPfScheduler R) : Prop where
  buffered : s'.dlInfoListBuffered = s.dlInfoListBuffered
  slices : s'.sliceInfoMap = s.sliceInfoMap
  txModes : s'.uesTxMode = s.uesTxMode
  users : s'.flowStatsDl.map (fun user =>
      (user.1, user.2.sliceId, user.2.lastAveragedSlicedThroughput)) =
    s.flowStatsDl.map fun user => (user.1, user.2.sliceId, user.2.lastAveragedSlicedThroughput)

theorem SameUsers.refl (s : NsPfScheduler R) : SameUsers s s := ⟨rfl, rfl, rfl, rfl⟩

theorem SameUsers.trans {s s' s'' : NsPfScheduler R} (h : SameUsers s s')
    (h' : SameUsers s' s'') : SameUsers s s'' :=
  ⟨h'.buffered.trans h.buffered, h'.slices.trans h.slices, h'.txModes.trans h.txModes,
    h'.users.trans h.users⟩

def Retransmits (el : BuildData) (info : DlInfo) : Prop := el.rnti = info.rnti ∧ 0 ∈ el.dci.ndi

instance (el : BuildData) (info : DlInfo) : Decidable (Retransmits el info) :=
  inferInstanceAs (Decidable (el.rnti = info.rnti ∧ 0 ∈ el.dci.ndi))

structure Idle (p p' : HarqPass R) : Prop where
  same : SameUsers p.sched p'.sched
  rbgMap : p'.rbgMap = p.rbgMap
  rntiAllocated : p'.rntiAllocated = p.rntiAllocated
  untxed : p'.dlInfoListUntxed = p.dlInfoListUntxed
  build : p'.buildDataList = p.buildDataList
  dcis : p'.sched.dlHarqProcessesDciBuffer = p.sched.dlHarqProcessesDciBuffer

theorem Idle.released {p : HarqPass R} {s : NsPfScheduler R} {rnti harqId : ℕ} {noStatus : Fault}
    {noPdus : String} (h : p.sched.releaseProcess rnti harqId noStatus noPdus = .ok s) :
    Idle p { p with sched := s } := by
  obtain ⟨_, _, rfl⟩ := releaseProcess_same h
  exact ⟨⟨rfl, rfl, rfl, rfl⟩, rfl, rfl, rfl, rfl, rfl⟩

structure Served (rbgNum : ℕ) (p p' : HarqPass R) (info : DlInfo) (dci : DlDci)
    (place : Placement) (el : BuildData) : Prop where
  same : SameUsers p.sched p'.sched
  placed : ∃ flowKnown,
    placeRetx rbgNum flowKnown dci info.rnti p.rbgMap p.rbgAllocatedNum = .ok place
  rbgMap : p'.rbgMap = place.rbgMap
  rntiAllocated : p'.rntiAllocated = info.rnti :: p.rntiAllocated
  untxed : p'.dlInfoListUntxed =
    if place.stored then p.dlInfoListUntxed ++ [info] else p.dlInfoListUntxed
  build : p'.buildDataList = p.buildDataList ++ [el]
  bitmap : el.dci.rbBitmap = place.dci.rbBitmap
  retransmits : Retransmits el info
  dcis : ∀ rnti ≠ info.rnti,
    p'.sched.dlHarqProcessesDciBuffer rnti = p.sched.dlHarqProcessesDciBuffer rnti

theorem retransmit_spec {rbgNum : ℕ} {p p' : HarqPass R} {info : DlInfo} {retx : List Bool}
    {dcis : List DlDci} {dci : DlDci} (hlayers : 0 < info.harqStatus.length)
    (h : retransmit rbgNum p info retx dcis dci = .ok p') :
    ∃ place el, Served rbgNum p p' info dci place el := by
  unfold retransmit at h
  obtain ⟨place, hplace, h⟩ := bind_eq_ok.mp h
  obtain ⟨rlc, _, h⟩ := bind_eq_ok.mp h
  obtain ⟨newDci, hdci, h⟩ := bind_eq_ok.mp h
  obtain ⟨pdus, _, h⟩ := bind_eq_ok.mp h
  obtain ⟨s, hs, h⟩ := bind_eq_ok.mp h
  have hne : List.range info.harqStatus.length ≠ [] := by
    intro hnil
    rw [List.range_eq_nil] at hnil
    omega
  obtain ⟨hbitmap, hndi⟩ := retxLayers_spec hne hdci
  rw [← pure_eq_ok.mp h]
  obtain ⟨_, _, rfl⟩ := storeRetx_same hs
  refine ⟨place, ⟨info.rnti, newDci, pdus⟩, ⟨rfl, rfl, rfl, rfl⟩, ⟨_, hplace⟩, rfl, rfl, rfl, rfl,
    hbitmap, ⟨rfl, hndi⟩, ?_⟩
  intro rnti hrnti
  exact Function.update_of_ne hrnti _ _

theorem harqTurn_spec {rbgNum : ℕ} {p p' : HarqPass R} {info : DlInfo}
    (h : harqTurn rbgNum p info = .ok p') :
    (info.rnti ∈ p.rntiAllocated ∨ ¬ info.Nacked) ∧ Idle p p' ∨
      (info.rnti ∉ p.rntiAllocated ∧ info.Nacked) ∧ ∃ dci,
        (p.sched.dlHarqProcessesDciBuffer info.rnti).bind (·[info.harqProcessId]?) = some dci ∧
        (dci.Exhausted ∧ Idle p p' ∨
          ¬ dci.Exhausted ∧ ∃ place el, Served rbgNum p p' info dci place el) := by
  unfold harqTurn at h
  by_cases hserved : info.rnti ∈ p.rntiAllocated
  · rw [if_pos hserved] at h
    cases pure_eq_ok.mp h
    exact .inl ⟨.inl hserved, .refl _, rfl, rfl, rfl, rfl, rfl⟩
  · rw [if_neg hserved] at h
    obtain ⟨retx, hretx, h⟩ := bind_eq_ok.mp h
    obtain ⟨hnacked, hlayers⟩ := retxFlags_spec hretx
    by_cases hany : retx.any id = true
    · rw [if_pos hany] at h
      obtain ⟨dcis, hdcis, h⟩ := bind_eq_ok.mp h
      obtain ⟨dci, hdci, h⟩ := bind_eq_ok.mp h
      obtain ⟨rv, hrv, h⟩ := bind_eq_ok.mp h
      refine .inr ⟨⟨hserved, hnacked.mp hany⟩, dci, ?_, ?_⟩
      · rw [orFatal_ok hdcis]
        exact vecAt_ok hdci
      · by_cases hmax : rv = 3
        · rw [if_pos hmax] at h
          obtain ⟨s, hs, h⟩ := bind_eq_ok.mp h
          rw [← pure_eq_ok.mp h]
          exact .inl ⟨(maxRv_spec hrv).mp hmax, .released hs⟩
        · rw [if_neg hmax] at h
          refine .inr ⟨fun hex => hmax ((maxRv_spec hrv).mpr hex), ?_⟩
          exact retransmit_spec hlayers h
    · rw [if_neg hany] at h
      obtain ⟨s, hs, h⟩ := bind_eq_ok.mp h
      rw [← pure_eq_ok.mp h]
      exact .inl ⟨.inr fun hn => hany (hnacked.mpr hn), .released hs⟩

def builtRbgs (build : List BuildData) : List ℕ := build.flatMap fun el => dciRbgs el.dci.rbBitmap

structure Granted (rbgMap : List Bool) (build : List BuildData) : Prop where
  nodup : (builtRbgs build).Nodup
  taken : ∀ r ∈ builtRbgs build, rbgMap[r]? = some true

theorem Granted.nil (rbgMap : List Bool) : Granted rbgMap [] :=
  ⟨List.nodup_nil, fun _ hr => (List.not_mem_nil hr).elim⟩

theorem Granted.append {rbgMap : List Bool} {build : List BuildData} (hg : Granted rbgMap build)
    {rbgs : List ℕ} (hfree : ∀ r ∈ rbgs, FreeRbg rbgMap r) {el : BuildData}
    (hel : ∀ r, r ∈ dciRbgs el.dci.rbBitmap ↔ r ∈ rbgs) :
    Granted (reserve rbgMap rbgs) (build ++ [el]) := by
  have hsplit : builtRbgs (build ++ [el]) = builtRbgs build ++ dciRbgs el.dci.rbBitmap := by
    rw [builtRbgs, List.flatMap_append, builtRbgs]
    simp
  constructor
  · rw [hsplit]
    refine List.nodup_append'.mpr ⟨hg.nodup, dciRbgs_nodup _, ?_⟩
    intro r hold hnew
    have htaken := hg.taken r hold
    rw [hfree r ((hel r).mp hnew)] at htaken
    cases htaken
  · intro r hr
    rw [hsplit, List.mem_append] at hr
    cases hr with
    | inl hold => exact reserve_keeps rbgs (hg.taken r hold)
    | inr hnew => exact reserve_taken hfree ((hel r).mp hnew)

theorem Granted.disjoint {rbgMap : List Bool} {build : List BuildData}
    (hg : Granted rbgMap build) :
    build.Pairwise fun a b => a.dci.rbBitmap &&& b.dci.rbBitmap = 0#32 := by
  have hpairs := (List.nodup_flatMap.mp hg.nodup).2
  exact hpairs.imp fun hab => (disjoint_bitmaps_iff _ _).mpr hab

theorem freeAfter_nodup {rbgNum : ℕ} (hnum : 0 < rbgNum) (rbgMap : List Bool) (startRbg : ℕ) :
    (freeAfter rbgNum rbgMap startRbg).Nodup :=
  (cyclicFrom_nodup (Nat.mod_lt _ hnum) le_rfl).filter _

theorem mem_freeAfter {rbgNum : ℕ} {rbgMap : List Bool} {startRbg r : ℕ}
    (hr : r ∈ freeAfter rbgNum rbgMap startRbg) : r < rbgNum ∧ FreeRbg rbgMap r := by
  obtain ⟨hmem, hfree⟩ := List.mem_filter.mp hr
  obtain ⟨k, hk, heq⟩ := List.mem_map.mp ((List.takeWhile_sublist _).subset hmem)
  have hk' : k < rbgNum := List.mem_range.mp hk
  refine ⟨?_, by simpa using hfree⟩
  rw [← heq]
  exact Nat.mod_lt _ (by omega)

theorem Served.spec {rbgNum : ℕ} (hnum : rbgNum ≤ 32) {p p' : HarqPass R} {info : DlInfo}
    {dci : DlDci} {place : Placement} {el : BuildData}
    (hs : Served rbgNum p p' info dci place el) (hg : Granted p.rbgMap p.buildDataList)
    (rest : List (List ℕ)) :
    (HasRoom rbgNum p.rbgMap (dciRbgs dci.rbBitmap :: rest) ↔
        p'.dlInfoListUntxed = p.dlInfoListUntxed ∧ HasRoom rbgNum p'.rbgMap rest) ∧
      (p'.dlInfoListUntxed = p.dlInfoListUntxed → Granted p'.rbgMap p'.buildDataList) := by
  obtain ⟨flowKnown, hplaced⟩ := hs.placed
  rw [hs.rbgMap, hs.untxed, hs.build, hasRoom_cons]
  obtain ⟨hfree, rfl⟩ | ⟨hbusy, hroom, rfl⟩ | ⟨hbusy, hroom, rfl⟩ := placeRetx_spec hplaced
  · dsimp only
    rw [if_pos hfree]
    refine ⟨by simp, fun _ => hg.append hfree fun r => ?_⟩
    rw [hs.bitmap]
  · dsimp only
    rw [if_neg hbusy]
    refine ⟨?_, fun _ => hg.append ?_ ?_⟩
    · simp only [Bool.false_eq_true, if_false, true_and]
      exact and_iff_right hroom
    · intro r hr
      exact (mem_freeAfter (List.mem_of_mem_take hr)).2
    · intro r
      rw [hs.bitmap]
      by_cases hzero : rbgNum = 0
      · subst hzero
        simp [freeAfter, cyclicFrom, rbgMask]
      · apply mem_dciRbgs_rbgMask
        · exact (freeAfter_nodup (by omega) _ _).sublist (List.take_sublist _ _)
        · intro x hx
          have := (mem_freeAfter (List.mem_of_mem_take hx)).1
          omega
  · dsimp only
    rw [if_neg hbusy]
    constructor
    · apply iff_of_false
      · intro hall
        exact absurd hall.1 (Nat.not_le.mpr hroom)
      · intro hall
        simpa using hall.1
    · intro hsame
      simp at hsame

theorem harqTurn_stored {rbgNum : ℕ} {p p' : HarqPass R} {info : DlInfo}
    (h : harqTurn rbgNum p info = .ok p') :
    p.dlInfoListUntxed <+: p'.dlInfoListUntxed ∧
      ((∀ info ∈ p.dlInfoListUntxed, ∃ el ∈ p.buildDataList, Retransmits el info) →
        ∀ info ∈ p'.dlInfoListUntxed, ∃ el ∈ p'.buildDataList, Retransmits el info) := by
  obtain ⟨_, hi⟩ | ⟨_, dci, _, ⟨_, hi⟩ | ⟨_, place, el, hs⟩⟩ := harqTurn_spec h
  · rw [hi.untxed, hi.build]
    exact ⟨List.prefix_refl _, id⟩
  · rw [hi.untxed, hi.build]
    exact ⟨List.prefix_refl _, id⟩
  · rw [hs.untxed, hs.build]
    cases place.stored with
    | false =>
      refine ⟨List.prefix_refl _, fun hall i hmem => ?_⟩
      obtain ⟨e, he, hr⟩ := hall i hmem
      exact ⟨e, List.mem_append_left _ he, hr⟩
    | true =>
      refine ⟨List.prefix_append _ _, fun hall i hmem => ?_⟩
      cases List.mem_append.mp hmem with
      | inl hold =>
        obtain ⟨e, he, hr⟩ := hall i hold
        exact ⟨e, List.mem_append_left _ he, hr⟩
      | inr hnew =>
        rw [List.mem_singleton.mp hnew]
        exact ⟨el, List.mem_append_right _ (List.mem_singleton_self _), hs.retransmits⟩

theorem harqPass_stored {rbgNum : ℕ} {infos : List DlInfo} {p p' : HarqPass R}
    (h : infos.foldlM (harqTurn rbgNum) p = .ok p')
    (hall : ∀ info ∈ p.dlInfoListUntxed, ∃ el ∈ p.buildDataList, Retransmits el info) :
    p.dlInfoListUntxed <+: p'.dlInfoListUntxed ∧
      ∀ info ∈ p'.dlInfoListUntxed, ∃ el ∈ p'.buildDataList, Retransmits el info := by
  apply foldlM_inv (P := fun q _ => p.dlInfoListUntxed <+: q.dlInfoListUntxed ∧
    ∀ info ∈ q.dlInfoListUntxed, ∃ el ∈ q.buildDataList, Retransmits el info) _
    ⟨List.prefix_refl _, hall⟩ h
  intro q info _ q' hq hturn
  obtain ⟨hpre, hbuilt⟩ := harqTurn_stored hturn
  exact ⟨hq.1.trans hpre, hbuilt hq.2⟩

/-- There is room for every retransmission just when none is stored, and then no RBG is given
away twice. -/
theorem harqPass_spec {rbgNum : ℕ} (hnum : rbgNum ≤ 32) {dcis : ℕ → Option (List DlDci)}
    {infos : List DlInfo} {p p' : HarqPass R} (h : infos.foldlM (harqTurn rbgNum) p = .ok p')
    (hdcis : ∀ rnti ∉ p.rntiAllocated, p.sched.dlHarqProcessesDciBuffer rnti = dcis rnti)
    (hg : Granted p.rbgMap p.buildDataList) (hnone : p.dlInfoListUntxed = []) :
    (HasRoom rbgNum p.rbgMap (retxDue dcis p.rntiAllocated infos) ↔ p'.dlInfoListUntxed = []) ∧
      (p'.dlInfoListUntxed = [] → Granted p'.rbgMap p'.buildDataList) := by
  induction infos generalizing p with
  | nil =>
    cases pure_eq_ok.mp h
    exact ⟨iff_of_true trivial hnone, fun _ => hg⟩
  | cons info rest ih =>
    rw [List.foldlM_cons, bind_eq_ok] at h
    obtain ⟨q, hturn, hrest⟩ := h
    have hidle : Idle p q → (HasRoom rbgNum p.rbgMap (retxDue dcis p.rntiAllocated rest) ↔
        p'.dlInfoListUntxed = []) ∧
        (p'.dlInfoListUntxed = [] → Granted p'.rbgMap p'.buildDataList) := by
      intro hi
      rw [← hi.rbgMap, ← hi.rntiAllocated]
      apply ih hrest
      · intro rnti hrnti
        rw [hi.dcis]
        exact hdcis rnti (hi.rntiAllocated ▸ hrnti)
      · rw [hi.rbgMap, hi.build]
        exact hg
      · rw [hi.untxed]
        exact hnone
    unfold retxDue
    obtain ⟨hskip, hi⟩ | ⟨⟨hnew, hnacked⟩, dci, hdci, hcases⟩ := harqTurn_spec hturn
    · rw [if_pos hskip]
      exact hidle hi
    · rw [if_neg (by rintro (hin | hn); exacts [hnew hin, hn hnacked]), ← hdcis _ hnew, hdci]
      dsimp only
      obtain ⟨hex, hi⟩ | ⟨hex, place, el, hs⟩ := hcases
      · rw [if_pos hex]
        exact hidle hi
      · rw [if_neg hex]
        obtain ⟨hroom, hgrant⟩ := hs.spec hnum hg (retxDue dcis (info.rnti :: p.rntiAllocated) rest)
        rw [hroom, hnone]
        by_cases hq : q.dlInfoListUntxed = []
        · have ihq := ih hrest
            (fun rnti hrnti => by
              rw [hs.rntiAllocated, List.mem_cons, not_or] at hrnti
              rw [hs.dcis rnti hrnti.1]
              exact hdcis rnti hrnti.2)
            (hgrant (by rw [hq, hnone])) hq
          rw [hs.rntiAllocated] at ihq
          rw [and_iff_right hq]
          exact ihq
        · -- what was stored in this turn is still there at the end
          have hstored : p'.dlInfoListUntxed ≠ [] := by
            intro hnil
            have hpre : q.dlInfoListUntxed <+: p'.dlInfoListUntxed :=
              foldlM_inv (P := fun t _ => q.dlInfoListUntxed <+: t.dlInfoListUntxed)
                (fun _ _ _ _ ht hstep => ht.trans (harqTurn_stored hstep).1)
                (List.prefix_refl _) hrest
            rw [hnil] at hpre
            exact hq (List.prefix_nil.mp hpre)
          exact ⟨iff_of_false (fun hall => hq hall.1) hstored, fun hnil => absurd hnil hstored⟩

end NetGymSim.Gma

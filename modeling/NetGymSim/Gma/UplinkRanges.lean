import NetGymSim.Gma.NsPfUplink

/-!
# The RBs of an uplink trigger are given once

Every DCI that is issued has its RBs marked in `rbMap`, and a window or a retransmission is only
placed where the map is free. The search for a window never cuts the window it has started with,
so the length in the DCI is the length that was marked.
-/

namespace NetGymSim.Gma
open NetGymSim.Lib
variable {R : Type}

def Leaves {α : Type} (x : Except Fault α) : Prop := x ≠ .error .endless

namespace Leaves
variable {α β : Type}

theorem pure (a : α) : Leaves (Pure.pure a : Except Fault α) := by
  intro h
  cases h

theorem error {fault : Fault} (h : fault ≠ .endless) : Leaves (.error fault : Except Fault α) := by
  intro heq
  exact h (Except.error.inj heq)

theorem bind {x : Except Fault α} {f : α → Except Fault β} (hx : Leaves x)
    (hf : ∀ a, x = .ok a → Leaves (f a)) : Leaves (x >>= f) := by
  cases x with
  | error fault => exact fun h => hx (congrArg _ (Except.error.inj h))
  | ok a => exact hf a rfl

theorem ite {c : Prop} [Decidable c] {x y : Except Fault α} (hx : c → Leaves x)
    (hy : ¬ c → Leaves y) : Leaves (if c then x else y) := by
  split_ifs with hc
  · exact hx hc
  · exact hy hc

theorem vecAt (l : List α) (i : ℕ) : Leaves (vecAt l i) := by
  unfold Gma.vecAt
  cases l[i]? with
  | none => exact error (by decide)
  | some a => exact pure a

theorem vecSet (l : List α) (i : ℕ) (a : α) : Leaves (vecSet l i a) := by
  unfold Gma.vecSet
  exact ite (fun _ => pure _) fun _ => error (by decide)

theorem orFatal (entry : Option α) (text : String) (rnti : ℕ) :
    Leaves (orFatal entry text rnti) := by
  cases entry with
  | none => exact error (by simp)
  | some a => exact pure a

theorem foldlM {step : β → α → Except Fault β} (h : ∀ b a, Leaves (step b a)) (l : List α)
    (b : β) : Leaves (l.foldlM step b) := by
  induction l generalizing b with
  | nil => exact pure b
  | cons a rest ih =>
    rw [List.foldlM_cons]
    exact bind (h b a) fun b' _ => ih b'

theorem mapM {f : α → Except Fault β} (h : ∀ a, Leaves (f a)) (l : List α) :
    Leaves (l.mapM f) := by
  induction l with
  | nil => exact pure []
  | cons a rest ih =>
    rw [List.mapM_cons]
    exact bind (h a) fun _ _ => bind ih fun _ _ => pure _

end Leaves

/-- What an uplink trigger leaves of the users: who they are and the size of the cell. -/
structure NsPfUplink.SameUsers (s s' : NsPfUplink R) : Prop where
  bandwidth : s'.ulBandwidth = s.ulBandwidth
  rach : s'.rachAllocationMap = s.rachAllocationMap
  users : s'.ceBsrRxed.map Prod.fst = s.ceBsrRxed.map Prod.fst

namespace NsPfUplink.SameUsers
variable {s s' s'' : NsPfUplink R}

theorem refl (s : NsPfUplink R) : s.SameUsers s := ⟨rfl, rfl, rfl⟩

theorem trans (h : s.SameUsers s') (h' : s'.SameUsers s'') : s.SameUsers s'' :=
  ⟨h'.bandwidth.trans h.bandwidth, h'.rach.trans h.rach, h'.users.trans h.users⟩

theorem length (h : s.SameUsers s') : s'.ceBsrRxed.length = s.ceBsrRxed.length := by
  simpa using congrArg List.length h.users

end NsPfUplink.SameUsers

namespace UlPass
variable {p p' : UlPass R} {B rnti : ℕ} {rbs : List ℕ}

structure Once (B : ℕ) (p : UlPass R) : Prop where
  map : p.rbgAllocationMap.length = B
  marked : ∀ dci ∈ p.dciList, ∀ j ∈ dci.rbs, j < B ∧ p.rbMap[j]? = some true
  disjoint : p.dciList.Pairwise fun a b => a.rbs.Disjoint b.rbs

structure Claimed (p p' : UlPass R) (rbs : List ℕ) : Prop where
  sched : p'.sched = p.sched
  rntiAllocated : p'.rntiAllocated = p.rntiAllocated
  dciList : p'.dciList = p.dciList
  length : p'.rbgAllocationMap.length = p.rbgAllocationMap.length
  inside : ∀ j ∈ rbs, j < p.rbgAllocationMap.length
  marked : ∀ j, p'.rbMap[j]? = some true ↔ p.rbMap[j]? = some true ∨ j ∈ rbs

theorem claim_spec (h : p.claim rnti rbs = .ok p') : p.Claimed p' rbs := by
  induction rbs generalizing p with
  | nil =>
    cases pure_eq_ok.mp h
    exact ⟨rfl, rfl, rfl, rfl, by simp, by simp⟩
  | cons j rest ih =>
    unfold claim at h ih
    rw [List.foldlM_cons] at h
    obtain ⟨p₁, hturn, h⟩ := bind_eq_ok.mp h
    obtain ⟨rbMap, hset, hturn⟩ := bind_eq_ok.mp hturn
    obtain ⟨alloc, hset', hturn⟩ := bind_eq_ok.mp hturn
    obtain rfl := pure_eq_ok.mp hturn
    obtain ⟨hj, rfl⟩ := vecSet_ok hset
    obtain ⟨hj', rfl⟩ := vecSet_ok hset'
    have hrest := ih h
    refine ⟨hrest.sched, hrest.rntiAllocated, hrest.dciList, ?_, ?_, ?_⟩
    · simpa using hrest.length
    · intro i hi
      rcases List.mem_cons.mp hi with rfl | hi
      · exact hj'
      · simpa using hrest.inside i hi
    · intro i
      rw [hrest.marked, List.mem_cons, List.getElem?_set]
      by_cases hij : j = i
      · subst hij
        simp [hj]
      · rw [if_neg hij]
        constructor
        · rintro (hold | hnew)
          · exact .inl hold
          · exact .inr (.inr hnew)
        · rintro (hold | rfl | hnew)
          · exact .inl hold
          · exact absurd rfl hij
          · exact .inr hnew

theorem claim_leaves (p : UlPass R) (rnti : ℕ) (rbs : List ℕ) : Leaves (p.claim rnti rbs) := by
  refine .foldlM (fun p j => ?_) rbs p
  exact .bind (.vecSet p.rbMap j true) fun _ _ =>
    .bind (.vecSet p.rbgAllocationMap j rnti) fun _ _ => .pure _

theorem Once.push (hp : p.Once B) (hfree : ∀ j ∈ rbs, p.rbMap[j]? = some false)
    (hclaim : p.Claimed p' rbs) {q : UlPass R} {dci : UlDci} (hdci : dci.rbs = rbs)
    (hmap : q.rbMap = p'.rbMap) (hlength : q.rbgAllocationMap.length = B)
    (hlist : q.dciList = p.dciList ++ [dci]) : q.Once B := by
  refine ⟨hlength, ?_, ?_⟩
  · intro d hd j hj
    rw [hmap, hclaim.marked]
    rw [hlist, List.mem_append, List.mem_singleton] at hd
    rcases hd with hd | rfl
    · obtain ⟨hin, hmarked⟩ := hp.marked d hd j hj
      exact ⟨hin, .inl hmarked⟩
    · rw [hdci] at hj
      exact ⟨hp.map ▸ hclaim.inside j hj, .inr hj⟩
  · rw [hlist]
    refine List.pairwise_append.mpr ⟨hp.disjoint, List.pairwise_singleton _ _, ?_⟩
    intro a ha b hb
    obtain rfl := List.mem_singleton.mp hb
    rw [hdci]
    intro j hja hjb
    have hmarked := (hp.marked a ha j hja).2
    rw [hfree j hjb] at hmarked
    cases hmarked

theorem Once.skip (hp : p.Once B) (hclaim : p.Claimed p' rbs) {q : UlPass R}
    (hmap : q.rbMap = p'.rbMap) (hlength : q.rbgAllocationMap.length = B)
    (hlist : q.dciList = p.dciList) : q.Once B := by
  refine ⟨hlength, ?_, hlist ▸ hp.disjoint⟩
  intro d hd j hj
  rw [hlist] at hd
  obtain ⟨hin, hmarked⟩ := hp.marked d hd j hj
  rw [hmap, hclaim.marked]
  exact ⟨hin, .inl hmarked⟩

end UlPass

theorem retxFree_spec {rbMap : List Bool} {rbs : List ℕ} (h : retxFree rbMap rbs = .ok true) :
    ∀ j ∈ rbs, rbMap[j]? = some false := by
  suffices hall : ∀ free, rbs.foldlM (fun free j => do
      let taken ← vecAt rbMap j
      pure (free && !taken)) free = .ok true →
      free = true ∧ ∀ j ∈ rbs, rbMap[j]? = some false from (hall true h).2
  clear h
  induction rbs with
  | nil =>
    intro free h
    exact ⟨pure_eq_ok.mp h, by simp⟩
  | cons j rest ih =>
    intro free h
    rw [List.foldlM_cons] at h
    obtain ⟨free', hturn, h⟩ := bind_eq_ok.mp h
    obtain ⟨taken, hat, hturn⟩ := bind_eq_ok.mp hturn
    obtain ⟨hfree, hrest⟩ := ih free' h
    rw [← pure_eq_ok.mp hturn, Bool.and_eq_true, Bool.not_eq_true'] at hfree
    obtain ⟨hfree, rfl⟩ := hfree
    refine ⟨hfree, fun i hi => ?_⟩
    rcases List.mem_cons.mp hi with rfl | hi
    · exact vecAt_ok hat
    · exact hrest i hi

theorem windowFree_spec {rbMap : List Bool} {isAvailable : ℕ → Bool} {rbs : List ℕ}
    (h : windowFree rbMap isAvailable rbs = .ok true) : ∀ j ∈ rbs, rbMap[j]? = some false := by
  induction rbs with
  | nil => simp
  | cons j rest ih =>
    obtain ⟨taken, hat, h⟩ := bind_eq_ok.mp h
    cases taken with
    | true => cases h
    | false =>
      by_cases havail : isAvailable j = true
      · simp only [havail, Bool.not_true, Bool.false_eq_true, if_false] at h
        intro i hi
        rcases List.mem_cons.mp hi with rfl | hi
        · exact vecAt_ok hat
        · exact ih h i hi
      · simp only [havail, Bool.not_false, Bool.false_eq_true, if_false, if_true] at h
        cases h

theorem windowFree_leaves (rbMap : List Bool) (isAvailable : ℕ → Bool) (rbs : List ℕ) :
    Leaves (windowFree rbMap isAvailable rbs) := by
  induction rbs with
  | nil => exact .pure true
  | cons j rest ih =>
    exact .bind (.vecAt rbMap j) fun _ _ => .ite (fun _ => .pure false) fun _ =>
      .ite (fun _ => .pure false) fun _ => ih

section Window
variable {B rbAllocated flow flow' r : ℕ} {free : List ℕ → Except Fault Bool}

theorem limitRbPerFlow_move (h : r + flow ≤ B) : limitRbPerFlow B (r + 1) flow = flow := by
  unfold limitRbPerFlow
  rw [if_neg (by omega)]

theorem limitRbPerFlow_lt (hB : B < 256) (hr : r ≤ B) (hflow : flow < 256) :
    limitRbPerFlow B r flow < 256 := by
  simp only [limitRbPerFlow, sub16_of_le (by omega : B < 65536) hr]
  split_ifs <;> omega

theorem findWindow_spec {fuel start : ℕ}
    (h : findWindow B free fuel r flow = .ok (some start, rbAllocated, flow')) :
    flow' = flow ∧ start + flow ≤ B ∧ free (List.range' start flow) = .ok true := by
  induction fuel generalizing r with
  | zero => cases h
  | succ fuel ih =>
    unfold findWindow at h
    by_cases hin : r + flow ≤ B ∧ flow ≠ 0
    · rw [if_pos hin] at h
      obtain ⟨found, hfree, h⟩ := bind_eq_ok.mp h
      cases found with
      | true =>
        cases pure_eq_ok.mp h
        exact ⟨rfl, hin.1, hfree⟩
      | false =>
        rw [limitRbPerFlow_move hin.1] at h
        exact ih h
    · rw [if_neg hin] at h
      cases pure_eq_ok.mp h

theorem findWindow_none {fuel : ℕ} (hr : r ≤ B)
    (h : findWindow B free fuel r flow = .ok (none, rbAllocated, flow')) :
    flow' = flow ∧ rbAllocated ≤ B := by
  induction fuel generalizing r with
  | zero => cases h
  | succ fuel ih =>
    unfold findWindow at h
    by_cases hin : r + flow ≤ B ∧ flow ≠ 0
    · rw [if_pos hin] at h
      obtain ⟨found, hfree, h⟩ := bind_eq_ok.mp h
      cases found with
      | true => cases pure_eq_ok.mp h
      | false =>
        rw [limitRbPerFlow_move hin.1] at h
        exact ih (by omega) h
    · rw [if_neg hin] at h
      cases pure_eq_ok.mp h
      exact ⟨rfl, hr⟩

theorem findWindow_leaves (hfree : ∀ rbs, Leaves (free rbs)) {fuel : ℕ} (hr : r ≤ B)
    (hfuel : B < r + fuel) : Leaves (findWindow B free fuel r flow) := by
  induction fuel generalizing r flow with
  | zero => omega
  | succ fuel ih =>
    unfold findWindow
    refine .ite (fun hin => .bind (hfree _) fun found _ => ?_) fun _ => .pure _
    exact .ite (fun _ => .pure _) fun _ => ih (by omega) (by omega)

end Window

section Harq
variable {p p' : UlPass R} {info : UlInfo} {B : ℕ}

theorem ulHarqTurn_cases (h : ulHarqTurn p info = .ok p') :
    p' = p ∨ ∃ (dci : UlDci) (p₁ : UlPass R) (status : ℕ → Option (List ℕ))
      (dcis : ℕ → Option (List UlDci)), (∀ j ∈ dci.rbs, p.rbMap[j]? = some false) ∧
      p.Claimed p₁ dci.rbs ∧ p' = { p₁ with
        sched := { p₁.sched with
          ulHarqProcessesStatus := status
          ulHarqProcessesDciBuffer := dcis }
        rntiAllocated := p₁.rntiAllocated.insert dci.rnti
        dciList := p₁.dciList ++ [{ dci with ndi := 0 }] } := by
  unfold ulHarqTurn at h
  by_cases hnack : info.receptionStatus = .notOk
  · rw [if_pos hnack] at h
    cases hproc : p.sched.ulHarqCurrentProcessId info.rnti with
    | none => simp [hproc] at h
    | some processId =>
      simp only [hproc] at h
      cases hdcis : p.sched.ulHarqProcessesDciBuffer info.rnti with
      | none =>
        simp only [hdcis] at h
        exact .inl (pure_eq_ok.mp h).symm
      | some dcis =>
        simp only [hdcis] at h
        obtain ⟨dci, hdci, h⟩ := bind_eq_ok.mp h
        cases hstatus : p.sched.ulHarqProcessesStatus info.rnti with
        | none => simp [hstatus] at h
        | some status =>
          simp only [hstatus] at h
          obtain ⟨retx, hretx, h⟩ := bind_eq_ok.mp h
          by_cases hmax : 3 ≤ retx
          · rw [if_pos hmax] at h
            exact .inl (pure_eq_ok.mp h).symm
          · rw [if_neg hmax] at h
            obtain ⟨free, hfree, h⟩ := bind_eq_ok.mp h
            cases free with
            | false =>
              exact .inl (pure_eq_ok.mp h).symm
            | true =>
              obtain ⟨p₁, hclaim, h⟩ := bind_eq_ok.mp h
              obtain ⟨status', -, h⟩ := bind_eq_ok.mp h
              obtain ⟨dcis', -, h⟩ := bind_eq_ok.mp h
              exact .inr ⟨dci, p₁, _, _, retxFree_spec hfree, UlPass.claim_spec hclaim,
                (pure_eq_ok.mp h).symm⟩
  · rw [if_neg hnack] at h
    exact .inl (pure_eq_ok.mp h).symm

theorem ulHarqTurn_leaves (p : UlPass R) (info : UlInfo) : Leaves (ulHarqTurn p info) := by
  unfold ulHarqTurn
  refine .ite (fun _ => ?_) fun _ => .pure _
  cases p.sched.ulHarqCurrentProcessId info.rnti with
  | none => exact .error (by decide)
  | some processId =>
    cases p.sched.ulHarqProcessesDciBuffer info.rnti with
    | none => exact .pure _
    | some dcis =>
      refine .bind (.vecAt _ _) fun dci _ => ?_
      cases p.sched.ulHarqProcessesStatus info.rnti with
      | none => exact .error (by decide)
      | some status =>
        refine .bind (.vecAt _ _) fun retx _ => .ite (fun _ => .pure _) fun _ => ?_
        have hfree : Leaves (retxFree p.rbMap dci.rbs) :=
          .foldlM (fun free j => .bind (.vecAt p.rbMap j) fun _ _ => .pure _) _ _
        refine .bind hfree fun free _ => .ite (fun _ => ?_) fun _ => .pure _
        exact .bind (UlPass.claim_leaves _ _ _) fun _ _ => .bind (.vecSet _ _ _) fun _ _ =>
          .bind (.vecSet _ _ _) fun _ _ => .pure _

theorem ulHarqTurn_once (hp : p.Once B) (h : ulHarqTurn p info = .ok p') :
    p'.Once B ∧ p.sched.SameUsers p'.sched ∧ p'.sched.nextRntiUl = p.sched.nextRntiUl := by
  rcases ulHarqTurn_cases h with rfl | ⟨dci, p₁, status, dcis, hfree, hclaim, rfl⟩
  · exact ⟨hp, .refl _, rfl⟩
  · have hrbs : UlDci.rbs { dci with ndi := 0 } = dci.rbs := rfl
    refine ⟨?_, ?_, ?_⟩
    · exact hp.push hfree hclaim hrbs rfl (hclaim.length.trans hp.map)
        (congrArg (· ++ _) hclaim.dciList)
    · rw [← hclaim.sched]
      exact ⟨rfl, rfl, rfl⟩
    · rw [← hclaim.sched]

end Harq

section Users
variable {radio : UlRadio R} {s s' : NsPfUplink R} {dci : UlDci} {B : ℕ}

theorem minSinr_leaves (radio : UlRadio R) (B : ℕ) (sinrs : List R) (dci : UlDci) :
    Leaves (minSinr radio B sinrs dci) := by
  have hat : ∀ sinrs rb, Leaves (sinrAt radio B sinrs rb) := by
    intro sinrs rb
    refine .bind (.vecAt sinrs rb) fun sinr _ => .ite (fun _ => ?_) fun _ => .pure _
    exact .bind (.mapM (fun i => .vecAt sinrs i) _) fun _ _ =>
      .bind (.vecSet _ _ _) fun _ _ => .pure _
  refine .bind (hat sinrs dci.rbStart) fun first _ => .foldlM (fun acc i => ?_) _ _
  exact .bind (hat acc.2 i) fun _ _ => .pure _

theorem chooseMcs_leaves (radio : UlRadio R) (s : NsPfUplink R) (dci : UlDci) :
    Leaves (chooseMcs radio s dci) := by
  unfold chooseMcs
  match s.ueCqi dci.rnti with
  | none => exact .pure _
  | some [] => exact .error (by simp)
  | some (sinr :: sinrs) => exact .bind (minSinr_leaves _ _ _ _) fun _ _ => .pure _

theorem storeUlDci_leaves (s : NsPfUplink R) (dci : UlDci) : Leaves (s.storeUlDci dci) := by
  unfold NsPfUplink.storeUlDci
  refine .ite (fun _ => ?_) fun _ => .pure _
  refine .bind (.orFatal _ _ _) fun harqId _ => .bind (.orFatal _ _ _) fun dcis _ =>
    .bind (.vecSet _ _ _) fun dcis _ => ?_
  cases s.ulHarqProcessesStatus dci.rnti with
  | none => exact .error (by decide)
  | some status => exact .bind (.vecSet _ _ _) fun _ _ => .pure _

theorem chooseMcs_spec {mcs : Option ℕ} (h : chooseMcs radio s dci = .ok (mcs, s')) :
    s.SameUsers s' ∧ s'.nextRntiUl = s.nextRntiUl := by
  unfold chooseMcs at h
  match hcqi : s.ueCqi dci.rnti with
  | none =>
    simp only [hcqi] at h
    cases pure_eq_ok.mp h
    exact ⟨.refl s, rfl⟩
  | some [] => simp [hcqi] at h
  | some (sinr :: sinrs) =>
    simp only [hcqi] at h
    obtain ⟨_, -, h⟩ := bind_eq_ok.mp h
    cases pure_eq_ok.mp h
    exact ⟨⟨rfl, rfl, rfl⟩, rfl⟩

theorem storeUlDci_spec (h : s.storeUlDci dci = .ok s') :
    s.SameUsers s' ∧ s'.nextRntiUl = s.nextRntiUl := by
  unfold NsPfUplink.storeUlDci at h
  by_cases hon : s.harqOn = true
  · rw [if_pos hon] at h
    obtain ⟨harqId, -, h⟩ := bind_eq_ok.mp h
    obtain ⟨dcis, -, h⟩ := bind_eq_ok.mp h
    obtain ⟨dcis', -, h⟩ := bind_eq_ok.mp h
    cases hstatus : s.ulHarqProcessesStatus dci.rnti with
    | none => simp [hstatus] at h
    | some status =>
      simp only [hstatus] at h
      obtain ⟨status', -, h⟩ := bind_eq_ok.mp h
      cases pure_eq_ok.mp h
      exact ⟨⟨rfl, rfl, rfl⟩, rfl⟩
  · rw [if_neg hon] at h
    cases pure_eq_ok.mp h
    exact ⟨.refl s, rfl⟩

theorem updateUl_sameUsers (s : NsPfUplink R) (rnti size : ℕ) :
    s.SameUsers (s.updateUlRlcBufferInfo rnti size) := by
  refine ⟨rfl, rfl, ?_⟩
  simp only [NsPfUplink.updateUlRlcBufferInfo]
  exact OrderedMap.map_modify (g := Prod.fst) s.ceBsrRxed rnti fun _ => rfl

structure UlLoop.Fits (B : ℕ) (l : UlLoop R) : Prop where
  once : l.pass.Once B
  bandwidth : l.pass.sched.ulBandwidth = B
  rbAllocated : l.rbAllocated ≤ B
  rbPerFlow : l.rbPerFlow < 256

structure UlLoop.Moved (l l' : UlLoop R) (left : Bool) : Prop where
  users : l.pass.sched.SameUsers l'.pass.sched
  it : left = false → l'.it = if l.it + 1 = l.pass.sched.ceBsrRxed.length then 0 else l.it + 1
  next : left = false → l'.pass.sched.nextRntiUl = l.pass.sched.nextRntiUl
  known : left = true → l'.pass.sched.nextRntiUl ∈ l.pass.sched.ceBsrRxed.map Prod.fst

theorem foldlM_vecSet_length {rbs l l' : List ℕ} {a : ℕ}
    (h : rbs.foldlM (fun map i => vecSet map i a) l = .ok l') : l'.length = l.length := by
  refine foldlM_inv (P := fun map _ => map.length = l.length) ?_ rfl h
  intro map i rest map' hlength hset
  obtain ⟨-, rfl⟩ := vecSet_ok hset
  simpa using hlength

theorem mem_users_of_vecAt {m : List (ℕ × ℕ)} {i : ℕ} {entry : ℕ × ℕ}
    (h : vecAt m i = .ok entry) : entry.1 ∈ m.map Prod.fst :=
  List.mem_map_of_mem (List.mem_of_getElem? (vecAt_ok h))

variable {l l' : UlLoop R} {left : Bool} {rnti flow start : ℕ}

theorem grantWindow_spec (hl : l.Fits B) (hB : B < 256) (hin : start + flow ≤ B)
    (hfree : ∀ j ∈ List.range' start flow, l.pass.rbMap[j]? = some false)
    (h : grantWindow radio l rnti flow start flow = .ok (l', left)) :
    l'.Fits B ∧ l.Moved l' left := by
  unfold grantWindow at h
  obtain ⟨p, hclaim, h⟩ := bind_eq_ok.mp h
  have hclaim := UlPass.claim_spec hclaim
  obtain ⟨⟨mcs, s⟩, hmcs, h⟩ := bind_eq_ok.mp h
  have hrbs : ∀ tbSize mcs,
      UlDci.rbs ⟨rnti, start % 256, flow % 256, tbSize, mcs, 1⟩ = List.range' start flow := by
    intro tbSize mcs
    rw [UlDci.rbs, Nat.mod_eq_of_lt (by omega), Nat.mod_eq_of_lt (by omega)]
  have hs := chooseMcs_spec hmcs
  rw [hclaim.sched] at hs
  have hlen : p.rbgAllocationMap.length = B := hclaim.length.trans hl.once.map
  have hflow : flow < 256 := by omega
  cases mcs with
  | none =>
    obtain ⟨map, hmap, h⟩ := bind_eq_ok.mp h
    cases pure_eq_ok.mp h
    refine ⟨⟨hl.once.skip hclaim rfl ?_ hclaim.dciList, ?_, hin, hflow⟩,
      ⟨hs.1, ?_, fun _ => hs.2, by rintro ⟨⟩⟩⟩
    · exact (foldlM_vecSet_length hmap).trans hlen
    · exact hs.1.bandwidth.trans hl.bandwidth
    · intro _
      dsimp only [UlLoop.advance]
      rw [hs.1.length]
  | some mcs =>
    obtain ⟨s', hstore, h⟩ := bind_eq_ok.mp h
    have hs' := storeUlDci_spec hstore
    have husers : l.pass.sched.SameUsers s' :=
      hs.1.trans ((updateUl_sameUsers s rnti _).trans hs'.1)
    have honce : ∀ sched : NsPfUplink R, UlPass.Once B { p with
        sched := sched
        dciList := p.dciList ++ [⟨rnti, start % 256, flow % 256,
          radio.getUlTbSizeFromMcs mcs flow / 8 % 65536, mcs, 1⟩] } := by
      intro sched
      exact hl.once.push hfree hclaim (hrbs _ mcs) rfl hlen (congrArg (· ++ _) hclaim.dciList)
    have hband : s'.ulBandwidth = B := husers.bandwidth.trans hl.bandwidth
    simp only [UlLoop.advance] at h
    by_cases hend : start + flow = s'.ulBandwidth ∨ flow = 0
    · rw [if_pos hend] at h
      obtain ⟨next, hnext, h⟩ := bind_eq_ok.mp h
      cases pure_eq_ok.mp h
      refine ⟨⟨honce _, hband, hin, hflow⟩, ⟨⟨husers.bandwidth, husers.rach, husers.users⟩,
        by rintro ⟨⟩, by rintro ⟨⟩, ?_⟩⟩
      intro _
      rw [← husers.users]
      exact mem_users_of_vecAt hnext
    · rw [if_neg hend] at h
      cases pure_eq_ok.mp h
      refine ⟨⟨honce _, hband, hin, hflow⟩, ⟨husers, ?_, fun _ => hs'.2.trans hs.2, by rintro ⟨⟩⟩⟩
      intro _
      dsimp only [UlLoop.advance]
      rw [husers.length]

theorem grantWindow_leaves (radio : UlRadio R) (l : UlLoop R) (rnti rbLen start flow : ℕ) :
    Leaves (grantWindow radio l rnti rbLen start flow) := by
  refine .bind (UlPass.claim_leaves _ _ _) fun p _ => .bind (chooseMcs_leaves _ _ _) ?_
  rintro ⟨mcs, s⟩ -
  cases mcs with
  | none => exact .bind (.foldlM (fun map i => .vecSet map i 0) _ _) fun _ _ => .pure _
  | some mcs =>
    refine .bind (storeUlDci_leaves _ _) fun s' _ => .ite (fun _ => ?_) fun _ => .pure _
    exact .bind (.vecAt _ _) fun _ _ => .pure _

theorem ulTurn_spec (hl : l.Fits B) (hB : B < 256) (h : ulTurn radio l = .ok (l', left)) :
    l'.Fits B ∧ l.Moved l' left := by
  unfold ulTurn at h
  obtain ⟨⟨rnti, bytes⟩, hentry, h⟩ := bind_eq_ok.mp h
  dsimp only at h
  by_cases hskip : rnti ∈ l.pass.rntiAllocated ∨ bytes = 0
  · rw [if_pos hskip] at h
    cases pure_eq_ok.mp h
    exact ⟨⟨hl.once, hl.bandwidth, hl.rbAllocated, hl.rbPerFlow⟩,
      ⟨.refl _, fun _ => rfl, fun _ => rfl, by rintro ⟨⟩⟩⟩
  · rw [if_neg hskip] at h
    obtain ⟨⟨window, rbAllocated, flow⟩, hfind, h⟩ := bind_eq_ok.mp h
    rw [hl.bandwidth] at hfind
    cases window with
    | none =>
      cases pure_eq_ok.mp h
      obtain ⟨rfl, hr⟩ := findWindow_none (Nat.zero_le B) hfind
      refine ⟨⟨⟨hl.once.map, hl.once.marked, hl.once.disjoint⟩, hl.bandwidth, hr, ?_⟩,
        ⟨⟨rfl, rfl, rfl⟩, by rintro ⟨⟩, by rintro ⟨⟩,
          fun _ => mem_users_of_vecAt hentry⟩⟩
      exact limitRbPerFlow_lt hB hl.rbAllocated hl.rbPerFlow
    | some start =>
      obtain ⟨rfl, hin, hfree⟩ := findWindow_spec hfind
      rw [hl.bandwidth] at h
      exact grantWindow_spec hl hB hin (windowFree_spec hfree) h

theorem ulTurn_leaves (radio : UlRadio R) (l : UlLoop R) : Leaves (ulTurn radio l) := by
  refine .bind (.vecAt _ _) ?_
  rintro ⟨rnti, bytes⟩ -
  refine .ite (fun _ => .pure _) fun _ => ?_
  refine .bind (findWindow_leaves (windowFree_leaves _ _) (Nat.zero_le _) (by omega)) ?_
  rintro ⟨window, rbAllocated, flow⟩ -
  cases window with
  | none => exact .pure _
  | some start => exact grantWindow_leaves _ _ _ _ _ _

/-- The loop over the users, from a user on, in a cell of `n` users of which the one at `target` is
where the round ends. -/
structure UlLoop.Round (B n target fuel : ℕ) (l : UlLoop R) : Prop where
  fits : l.Fits B
  length : l.pass.sched.ceBsrRxed.length = n
  at_target : (l.pass.sched.ceBsrRxed.map Prod.fst)[target]? = some l.pass.sched.nextRntiUl
  it : l.it < n
  target : (l.it + fuel) % n = target

variable {n target fuel : ℕ}

theorem UlLoop.Round.turn (hl : l.Round B n target (fuel + 1)) (hB : B < 256)
    (h : ulTurn radio l = .ok (l', false)) : l'.Round B n target fuel := by
  obtain ⟨hfits, hmoved⟩ := ulTurn_spec hl.fits hB h
  have hit := hmoved.it rfl
  rw [hl.length] at hit
  have hlt := hl.it
  refine ⟨hfits, hmoved.users.length.trans hl.length, ?_, ?_, ?_⟩
  · rw [hmoved.users.users, hmoved.next rfl]
    exact hl.at_target
  · rw [hit]
    split_ifs <;> omega
  · have htarget := hl.target
    rw [hit]
    split_ifs with hlast
    · rw [← htarget, Nat.zero_add, ← Nat.add_assoc, Nat.add_right_comm, hlast, Nat.add_mod_left]
    · rw [← htarget, Nat.add_assoc, Nat.add_comm 1 fuel]

theorem UlLoop.Round.over (hl : l.Round B n target 0) {entry : ℕ × ℕ}
    (h : vecAt l.pass.sched.ceBsrRxed l.it = .ok entry) :
    entry.1 = l.pass.sched.nextRntiUl := by
  have htarget := hl.target
  rw [Nat.add_zero, Nat.mod_eq_of_lt hl.it] at htarget
  have hat := hl.at_target
  rw [← htarget, List.getElem?_map, vecAt_ok h] at hat
  exact Option.some.inj hat

theorem ulLoop_leaves (hl : l.Round B n target fuel) (hB : B < 256) (hfuel : 0 < fuel) :
    Leaves (ulLoop radio fuel l) := by
  induction fuel generalizing l with
  | zero => omega
  | succ fuel ih =>
    refine .bind (ulTurn_leaves radio l) ?_
    rintro ⟨l', left⟩ hturn
    cases left with
    | true => exact .pure l'
    | false =>
      have hround : l'.Round B n target fuel := hl.turn hB hturn
      refine .bind (.vecAt _ _) ?_
      rintro ⟨rnti, bytes⟩ hentry
      refine .ite (fun hgo => ih hround ?_) fun _ => .pure l'
      by_contra hzero
      obtain rfl : fuel = 0 := by omega
      exact hgo.1 (hround.over hentry)

theorem ulLoop_spec (hl : l.Fits B) (hB : B < 256) (h : ulLoop radio fuel l = .ok l') :
    l'.Fits B ∧ l.pass.sched.SameUsers l'.pass.sched ∧
      (l'.pass.sched.nextRntiUl = l.pass.sched.nextRntiUl ∨
        l'.pass.sched.nextRntiUl ∈ l.pass.sched.ceBsrRxed.map Prod.fst) := by
  induction fuel generalizing l with
  | zero => cases h
  | succ fuel ih =>
    obtain ⟨⟨l₁, left⟩, hturn, h⟩ := bind_eq_ok.mp h
    obtain ⟨hfits, hmoved⟩ := ulTurn_spec hl hB hturn
    cases left with
    | true =>
      cases pure_eq_ok.mp h
      exact ⟨hfits, hmoved.users, .inr (hmoved.known rfl)⟩
    | false =>
      obtain ⟨⟨rnti, bytes⟩, -, h⟩ := bind_eq_ok.mp h
      dsimp only at h
      by_cases hgo : rnti ≠ l₁.pass.sched.nextRntiUl ∧ l₁.rbPerFlow ≠ 0
      · rw [if_pos hgo] at h
        obtain ⟨hfits', husers, hnext⟩ := ih hfits h
        refine ⟨hfits', hmoved.users.trans husers, ?_⟩
        rwa [hmoved.next rfl, hmoved.users.users] at hnext
      · rw [if_neg hgo] at h
        cases pure_eq_ok.mp h
        exact ⟨hfits, hmoved.users, .inl (hmoved.next rfl)⟩

end Users

section Trigger
variable {radio : UlRadio R} {s s' : NsPfUplink R} {ulInfoList : List UlInfo} {dcis : List UlDci}

structure NsPfUplink.Ready (s : NsPfUplink R) : Prop where
  bandwidth : s.ulBandwidth < 256
  rach : s.rachAllocationMap.length = s.ulBandwidth
  next : s.nextRntiUl = 0 ∨ s.nextRntiUl ∈ s.ceBsrRxed.map Prod.fst

theorem rbPerFlow_lt (radio : UlRadio R) (p : UlPass R) : rbPerFlow radio p < 256 := by
  have hffr : ((p.sched.ulBandwidth - radio.availableUlRbg.count true : ℤ) % 256).toNat < 256 := by
    omega
  have hshare := Nat.div_le_self
    ((p.sched.ulBandwidth - radio.availableUlRbg.count true : ℤ) % 256).toNat
    (p.flows.length + p.rntiAllocated.length)
  simp only [rbPerFlow]
  omega

theorem firstUser_leaves (s : NsPfUplink R) : Leaves (firstUser s) := by
  unfold firstUser
  exact .ite (fun _ => .pure _) fun _ => .bind (.vecAt _ _) fun _ _ => .pure _

theorem firstUser_spec {it : ℕ}
    (hnext : s.nextRntiUl = 0 ∨ s.nextRntiUl ∈ s.ceBsrRxed.map Prod.fst)
    (h : firstUser s = .ok (it, s')) :
    s.SameUsers s' ∧ it < s.ceBsrRxed.length ∧
      (s.ceBsrRxed.map Prod.fst)[it]? = some s'.nextRntiUl := by
  unfold firstUser at h
  by_cases hzero : s.nextRntiUl ≠ 0
  · rw [if_pos hzero] at h
    cases pure_eq_ok.mp h
    obtain ⟨entry, hmem, hentry⟩ := List.mem_map.mp (hnext.resolve_left hzero)
    have hlt : (s.ceBsrRxed.findIdx fun entry => entry.1 = s.nextRntiUl) < s.ceBsrRxed.length :=
      List.findIdx_lt_length_of_exists ⟨entry, hmem, by simpa using hentry⟩
    refine ⟨.refl s, hlt, ?_⟩
    have hfound := List.findIdx_getElem (w := hlt)
    rw [List.getElem?_map, List.getElem?_eq_getElem hlt]
    simpa using hfound
  · rw [if_neg hzero] at h
    obtain ⟨entry, hentry, h⟩ := bind_eq_ok.mp h
    cases pure_eq_ok.mp h
    have hget := vecAt_ok hentry
    refine ⟨⟨rfl, rfl, rfl⟩, List.getElem?_eq_some_iff.mp hget |>.1, ?_⟩
    rw [List.getElem?_map, hget]
    rfl

theorem ulHarq_spec {p p' : UlPass R} {feedback : List UlInfo} {B : ℕ} (hp : p.Once B)
    (h : feedback.foldlM ulHarqTurn p = .ok p') :
    p'.Once B ∧ p.sched.SameUsers p'.sched ∧ p'.sched.nextRntiUl = p.sched.nextRntiUl := by
  refine foldlM_inv (P := fun q _ => q.Once B ∧ p.sched.SameUsers q.sched ∧
    q.sched.nextRntiUl = p.sched.nextRntiUl) ?_ ⟨hp, .refl _, rfl⟩ h
  rintro q info rest q' ⟨honce, husers, hnext⟩ hturn
  obtain ⟨honce', husers', hnext'⟩ := ulHarqTurn_once honce hturn
  exact ⟨honce', husers.trans husers', hnext'.trans hnext⟩

theorem removeRach_leaves (B : ℕ) (map : List ℕ) (rbMap : List Bool) :
    Leaves (removeRach B map rbMap) := by
  refine .foldlM (fun rbMap i => ?_) _ _
  exact .bind (.vecAt _ _) fun _ _ => .ite (fun _ => .vecSet _ _ _) fun _ => .pure _

theorem doSchedUlTriggerReq_cases (h : doSchedUlTriggerReq radio s ulInfoList = .ok (s', dcis)) :
    ∃ (s₀ : NsPfUplink R) (rbMap : List Bool) (feedback : List UlInfo) (p : UlPass R),
      s₀ = { s.refreshUlCqiMaps with
        rachAllocationMap := List.replicate s.ulBandwidth 0 } ∧
      feedback.foldlM ulHarqTurn ⟨s₀, rbMap, s.rachAllocationMap, [], []⟩ = .ok p ∧
      (s' = p.sched ∧ dcis = p.dciList ∨
        ∃ it s₁ l, firstUser p.sched = .ok (it, s₁) ∧
          ulLoop radio s₁.ceBsrRxed.length ⟨{ p with sched := s₁ }, it, 0, rbPerFlow radio p⟩ =
            .ok l ∧ s' = l.pass.sched ∧ dcis = l.pass.dciList) := by
  unfold doSchedUlTriggerReq at h
  obtain ⟨rbMap, -, h⟩ := bind_eq_ok.mp h
  obtain ⟨p, hharq, h⟩ := bind_eq_ok.mp h
  refine ⟨_, rbMap, _, p, rfl, hharq, ?_⟩
  by_cases hnone : p.flows = []
  · rw [if_pos hnone] at h
    cases pure_eq_ok.mp h
    exact .inl ⟨rfl, rfl⟩
  · rw [if_neg hnone] at h
    obtain ⟨⟨it, s₁⟩, hfirst, h⟩ := bind_eq_ok.mp h
    obtain ⟨l, hloop, h⟩ := bind_eq_ok.mp h
    cases pure_eq_ok.mp h
    exact .inr ⟨it, s₁, l, hfirst, hloop, rfl, rfl⟩

theorem once_start (B : ℕ) (s : NsPfUplink R) (rbMap : List Bool) {map : List ℕ}
    (hmap : map.length = B) : UlPass.Once B ⟨s, rbMap, map, [], []⟩ :=
  ⟨hmap, by simp, .nil⟩

theorem fits_start (it : ℕ) {p : UlPass R} {s₁ : NsPfUplink R} {B : ℕ} (hp : p.Once B)
    (hband : s₁.ulBandwidth = B) :
    UlLoop.Fits B ⟨{ p with sched := s₁ }, it, 0, rbPerFlow radio p⟩ :=
  ⟨⟨hp.map, hp.marked, hp.disjoint⟩, hband, Nat.zero_le B, rbPerFlow_lt radio p⟩

theorem doSchedUlTriggerReq_spec (hs : s.Ready)
    (h : doSchedUlTriggerReq radio s ulInfoList = .ok (s', dcis)) :
    s'.Ready ∧ (∀ dci ∈ dcis, ∀ j ∈ dci.rbs, j < s.ulBandwidth) ∧
      dcis.Pairwise fun a b => a.rbs.Disjoint b.rbs := by
  obtain ⟨s₀, rbMap, feedback, p, rfl, hharq, hrest⟩ := doSchedUlTriggerReq_cases h
  obtain ⟨honce, husers, hnext⟩ := ulHarq_spec (once_start s.ulBandwidth _ rbMap hs.rach) hharq
  have hp : p.sched.Ready := by
    refine ⟨?_, ?_, ?_⟩
    · rw [husers.bandwidth]
      exact hs.bandwidth
    · rw [husers.rach, husers.bandwidth]
      exact List.length_replicate
    · rw [hnext, husers.users]
      exact hs.next
  rcases hrest with ⟨rfl, rfl⟩ | ⟨it, s₁, l, hfirst, hloop, rfl, rfl⟩
  · exact ⟨hp, fun dci hdci j hj => (honce.marked dci hdci j hj).1, honce.disjoint⟩
  · obtain ⟨hs₁, -, hat⟩ := firstUser_spec hp.next hfirst
    have hband : s₁.ulBandwidth = s.ulBandwidth := hs₁.bandwidth.trans husers.bandwidth
    obtain ⟨hfits, husers', hnext'⟩ :=
      ulLoop_spec (fits_start it honce hband) hs.bandwidth hloop
    refine ⟨⟨?_, ?_, .inr ?_⟩, fun dci hdci j hj => (hfits.once.marked dci hdci j hj).1,
      hfits.once.disjoint⟩
    · rw [hfits.bandwidth]
      exact hs.bandwidth
    · rw [husers'.rach, hs₁.rach, hp.rach, hfits.bandwidth]
      exact husers.bandwidth
    · rw [husers'.users]
      rcases hnext' with hsame | hknown
      · rw [hsame]
        exact hs₁.users ▸ List.mem_of_getElem? hat
      · exact hknown

theorem doSchedUlTriggerReq_leaves (radio : UlRadio R) (hs : s.Ready) (ulInfoList : List UlInfo) :
    Leaves (doSchedUlTriggerReq radio s ulInfoList) := by
  unfold doSchedUlTriggerReq
  refine .bind (removeRach_leaves _ _ _) fun rbMap _ => ?_
  refine .bind (.foldlM ulHarqTurn_leaves _ _) fun p hharq => .ite (fun _ => .pure _) fun _ => ?_
  obtain ⟨honce, husers, hnext⟩ := ulHarq_spec (once_start s.ulBandwidth _ rbMap hs.rach) hharq
  refine .bind (firstUser_leaves _) ?_
  rintro ⟨it, s₁⟩ hfirst
  have hp : p.sched.nextRntiUl = 0 ∨ p.sched.nextRntiUl ∈ p.sched.ceBsrRxed.map Prod.fst := by
    rw [hnext, husers.users]
    exact hs.next
  obtain ⟨hs₁, hit, hat⟩ := firstUser_spec hp hfirst
  rw [← hs₁.length] at hit
  refine .bind ?_ fun l _ => .pure _
  have hround : UlLoop.Round s.ulBandwidth s₁.ceBsrRxed.length it s₁.ceBsrRxed.length
      ⟨{ p with sched := s₁ }, it, 0, rbPerFlow radio p⟩ := by
    refine ⟨fits_start it honce (hs₁.bandwidth.trans husers.bandwidth), rfl, ?_, hit, ?_⟩
    · rw [hs₁.users]
      exact hat
    · rw [Nat.add_mod_right, Nat.mod_eq_of_lt hit]
  exact ulLoop_leaves hround hs.bandwidth (by omega)

end Trigger
end NetGymSim.Gma

import NetGymSim.Internet.SpfHops

/-!
# What one turn of `SPFNext` does to the queue

Either nothing, because the vertex is in the tree or queued at a shorter distance, or the
vertex stands in the queue at the new distance, with the exits and parents of the earlier
instance if that was as near.
-/

namespace NetGymSim.Internet
open NetGymSim.Lib CandidateQueue

/-- The statuses of the LSAs tell where their vertices are, and the queue is in order. -/
structure QueueOk (G : GlobalRouteManager) (s : SpfState) : Prop where
  tree_stored : ∀ x ∈ s.tree, x.lsa ∈ G.lsdb.list
  queue_stored : ∀ x ∈ s.candidate, x.lsa ∈ G.lsdb.list
  tree_nodup : (s.tree.map SPFVertex.vertexId).Nodup
  queue_nodup : (s.candidate.map SPFVertex.vertexId).Nodup
  inTree : ∀ i, s.status i = .inSpfTree ↔ ∃ x ∈ s.tree, x.vertexId = i
  queued : ∀ i, s.status i = .candidate ↔ ∃ x ∈ s.candidate, x.vertexId = i
  sorted : s.candidate.Pairwise MayPrecede

structure Requeued (s s' : SpfState) (w : SPFVertex) : Prop where
  tree : s'.tree = s.tree
  status : s'.status = Function.update s.status w.vertexId .candidate
  mem : ∀ y, y ∈ s'.candidate ↔ y = w ∨ y ∈ s.candidate ∧ y.vertexId ≠ w.vertexId
  nodup : (s'.candidate.map SPFVertex.vertexId).Nodup
  sorted : s'.candidate.Pairwise MayPrecede

section Queue
variable {G : GlobalRouteManager} {s s' : SpfState} {v w : SPFVertex}

theorem QueueOk.queue_inj (hq : QueueOk G s) (hv : v ∈ s.candidate) (hw : w ∈ s.candidate)
    (h : v.vertexId = w.vertexId) : v = w :=
  List.inj_on_of_nodup_map hq.queue_nodup hv hw h

theorem QueueOk.tree_inj (hq : QueueOk G s) (hv : v ∈ s.tree) (hw : w ∈ s.tree)
    (h : v.vertexId = w.vertexId) : v = w :=
  List.inj_on_of_nodup_map hq.tree_nodup hv hw h

theorem QueueOk.apart (hq : QueueOk G s) (hv : v ∈ s.tree) (hw : w ∈ s.candidate) :
    v.vertexId ≠ w.vertexId := by
  intro h
  have ht := (hq.inTree w.vertexId).mpr ⟨v, hv, h⟩
  have hc := (hq.queued w.vertexId).mpr ⟨w, hw, rfl⟩
  rw [ht] at hc
  cases hc

theorem Requeued.queueOk (h : Requeued s s' w) (hq : QueueOk G s)
    (hw : w.lsa ∈ G.lsdb.list) (hout : s.status w.vertexId ≠ .inSpfTree) : QueueOk G s' where
  tree_stored := by
    rw [h.tree]
    exact hq.tree_stored
  queue_stored := by
    intro x hx
    rcases (h.mem x).mp hx with rfl | ⟨hx, -⟩
    · exact hw
    · exact hq.queue_stored x hx
  tree_nodup := by
    rw [h.tree]
    exact hq.tree_nodup
  queue_nodup := h.nodup
  inTree := by
    intro i
    rw [h.tree, h.status, ← hq.inTree]
    by_cases hi : i = w.vertexId
    · subst hi
      simp [hout]
    · rw [Function.update_of_ne hi]
  queued := by
    intro i
    rw [h.status]
    by_cases hi : i = w.vertexId
    · subst hi
      simp only [Function.update_self, true_iff]
      exact ⟨w, (h.mem w).mpr (.inl rfl), rfl⟩
    · rw [Function.update_of_ne hi, hq.queued]
      constructor
      · rintro ⟨x, hx, rfl⟩
        exact ⟨x, (h.mem x).mpr (.inr ⟨hx, hi⟩), rfl⟩
      · rintro ⟨x, hx, rfl⟩
        rcases (h.mem x).mp hx with rfl | ⟨hx, -⟩
        · exact (hi rfl).elim
        · exact ⟨x, hx, rfl⟩
  sorted := h.sorted

theorem push_requeued (hq : QueueOk G s) (hnew : s.status w.vertexId = .notExplored)
    (failed : ℕ) : Requeued s { s with
      status := Function.update s.status w.vertexId .candidate
      candidate := push w s.candidate
      failedAssertions := failed } w where
  tree := rfl
  status := rfl
  mem := by
    intro y
    rw [push_perm.mem_iff, List.mem_cons]
    refine or_congr_right ⟨fun hy => ⟨hy, fun hid => ?_⟩, fun hy => hy.1⟩
    have := (hq.queued w.vertexId).mpr ⟨y, hy, hid⟩
    simp [hnew] at this
  nodup := by
    rw [(push_perm.map SPFVertex.vertexId).nodup_iff, List.map_cons]
    refine List.nodup_cons.mpr ⟨fun hmem => ?_, hq.queue_nodup⟩
    have := (hq.queued w.vertexId).mpr (List.mem_map.mp hmem)
    simp [hnew] at this
  sorted := push_sorted hq.sorted

theorem store_requeued (hq : QueueOk G s) (hv : v ∈ s.candidate)
    (hid : v.vertexId = w.vertexId) {candidates : List SPFVertex}
    (hperm : candidates.Perm (store w s.candidate)) (hsorted : candidates.Pairwise MayPrecede)
    (failed : ℕ) :
    Requeued s { s with candidate := candidates, failedAssertions := failed } w where
  tree := rfl
  status := by
    have hc : s.status w.vertexId = .candidate := (hq.queued w.vertexId).mpr ⟨v, hv, hid⟩
    rw [← hc, Function.update_eq_self]
  mem := by
    intro y
    rw [hperm.mem_iff, mem_store hv hid]
  nodup := by
    rw [(hperm.map SPFVertex.vertexId).nodup_iff, map_vertexId_store]
    exact hq.queue_nodup
  sorted := hsorted

end Queue

namespace GlobalRouteManager
variable {G : GlobalRouteManager} {fuel : ℕ} {v : SPFVertex} {s s' : SpfState}
  {l : Option GlobalRoutingLinkRecord} {wLsa : GlobalRoutingLSA}

/-- The instance of a vertex that `explore` leaves in the queue: reached through `v`, with
what an equally near earlier instance had. -/
structure Instance (G : GlobalRouteManager) (fuel : ℕ) (v : SPFVertex)
    (l : Option GlobalRoutingLinkRecord) (wLsa : GlobalRoutingLSA) (s s' : SpfState)
    (w : SPFVertex) : Prop where
  lsa : w.lsa = wLsa
  distance : w.distanceFromRoot = hopDistance v l
  nearest : ∀ y ∈ s.candidate, y.vertexId = wLsa.linkStateId →
    hopDistance v l ≤ y.distanceFromRoot
  parents : ∀ u, u ∈ w.parents ↔ u = v.vertexId ∨ ∃ y ∈ s.candidate,
    y.vertexId = wLsa.linkStateId ∧ y.distanceFromRoot = hopDistance v l ∧ u ∈ y.parents
  parents_sorted : w.parents.Pairwise fun a b => G.vertexAddr a ≤ G.vertexAddr b
  rootExits : ∃ w₀ w₁ k, w₀.lsa = wLsa ∧ G.rootExits fuel v w₀ l = .ok (w₁, k) ∧
    s'.failedAssertions = s.failedAssertions + k ∧
    (w.ecmpRootExits = w₁.ecmpRootExits ∨ w.ecmpRootExits.Nodup) ∧
      ∀ nodeExit, nodeExit ∈ w.ecmpRootExits ↔ nodeExit ∈ w₁.ecmpRootExits ∨
      ∃ y ∈ s.candidate, y.vertexId = wLsa.linkStateId ∧
        y.distanceFromRoot = hopDistance v l ∧ nodeExit ∈ y.ecmpRootExits

theorem explore_cases (hq : QueueOk G s) (hw : wLsa ∈ G.lsdb.list)
    (h : G.explore fuel v l wLsa s = .ok s') :
    (s' = s ∧ s.status wLsa.linkStateId = .inSpfTree) ∨
    (s' = s ∧ ∃ y ∈ s.candidate, y.vertexId = wLsa.linkStateId ∧
      y.distanceFromRoot < hopDistance v l) ∨
    (s.status wLsa.linkStateId ≠ .inSpfTree ∧
      ∃ w, Requeued s s' w ∧ Instance G fuel v l wLsa s s' w) := by
  unfold explore at h
  cases hstatus : s.status wLsa.linkStateId with
  | inSpfTree =>
    rw [hstatus] at h
    cases h
    exact .inl ⟨rfl, rfl⟩
  | notExplored =>
    rw [hstatus] at h
    obtain ⟨⟨w, k⟩, hn, h⟩ := bind_eq_ok.mp h
    cases h
    obtain ⟨w₁, hw₁, rfl⟩ := spfNexthopCalculation_ok.mp hn
    have hlsa : w₁.lsa = wLsa := rootExits_lsa hw₁
    have hnone : ∀ y ∈ s.candidate, y.vertexId ≠ wLsa.linkStateId := by
      intro y hy hid
      have := (hq.queued _).mpr ⟨y, hy, hid⟩
      simp [hstatus] at this
    let w := (w₁.setDistanceFromRoot (hopDistance v l)).setParent v.vertexId
    refine .inr (.inr ⟨by simp, w, ?_, hlsa, rfl, fun y hy hid => (hnone y hy hid).elim,
      fun u => ?_, List.pairwise_singleton _ _, _, w₁, k, rfl, hw₁, rfl, .inl rfl,
      fun e => ?_⟩)
    · have hid : w.vertexId = wLsa.linkStateId := congrArg GlobalRoutingLSA.linkStateId hlsa
      have hp := push_requeued hq (hid ▸ hstatus) (s.failedAssertions + k)
      rw [hid] at hp
      exact hp
    · exact ⟨fun hu => .inl (List.mem_singleton.mp hu), fun hu => by
        rcases hu with rfl | ⟨y, hy, hid, -⟩
        · exact List.mem_singleton_self _
        · exact (hnone y hy hid).elim⟩
    · exact ⟨.inl, fun he => he.elim id fun ⟨y, hy, hid, _⟩ => (hnone y hy hid).elim⟩
  | candidate =>
    rw [hstatus] at h
    obtain ⟨y, hy, hyid⟩ := (hq.queued _).mp hstatus
    obtain ⟨cw, hfind⟩ := exists_find hy
    rw [hyid] at hfind
    obtain ⟨hcw, hcwid⟩ := find_some hfind
    have honly : ∀ y ∈ s.candidate, y.vertexId = wLsa.linkStateId → y = cw :=
      fun y hy hid => hq.queue_inj hy hcw (hid.trans hcwid.symm)
    have hcwlsa : cw.lsa = wLsa := Lsdb.id_injective (hq.queue_stored cw hcw) hw hcwid
    simp only [hfind] at h
    split at h
    · rename_i hlt
      cases h
      exact .inr (.inl ⟨rfl, cw, hcw, hcwid, hlt⟩)
    rename_i hge
    split at h
    · rename_i heq
      obtain ⟨⟨w, k⟩, hn, h⟩ := bind_eq_ok.mp h
      cases h
      obtain ⟨w₁, hw₁, rfl⟩ := spfNexthopCalculation_ok.mp hn
      let w := (w₁.setDistanceFromRoot (hopDistance v l)).setParent v.vertexId
      refine .inr (.inr ⟨by simp, (cw.mergeRootExitDirections w).mergeParent G.vertexAddr w,
        store_requeued hq hcw ?_ (.refl _) ?_ _, hcwlsa, heq,
        fun y hy hid => ?_, fun u => ?_, SPFVertex.mergeParent_sorted, _, w₁, k, rfl, hw₁,
        rfl, .inr SPFVertex.mergeRootExitDirections_nodup, fun e => ?_⟩)
      · rfl
      · exact store_sorted hq.sorted fun y hy hid => by
          rw [honly y hy (hid.trans hcwid)]
          exact ⟨rfl, rfl⟩
      · rw [honly y hy hid, heq]
      · rw [SPFVertex.mem_mergeParent, or_comm]
        refine or_congr List.mem_singleton ⟨fun hu => ?_, ?_⟩
        · exact ⟨cw, hcw, hcwid, heq, hu⟩
        · rintro ⟨y, hy, hid, -, hu⟩
          rwa [honly y hy hid] at hu
      · change e ∈ (cw.mergeRootExitDirections _).ecmpRootExits ↔ _
        rw [SPFVertex.mem_mergeRootExitDirections, or_comm]
        refine or_congr_right ⟨fun he => ⟨cw, hcw, hcwid, heq, he⟩, ?_⟩
        rintro ⟨y, hy, hid, -, he⟩
        rwa [honly y hy hid] at he
    · rename_i hne
      obtain ⟨⟨w, k⟩, hn, h⟩ := bind_eq_ok.mp h
      cases h
      obtain ⟨w₁, hw₁, rfl⟩ := spfNexthopCalculation_ok.mp hn
      have hlsa : w₁.lsa = cw.lsa := rootExits_lsa hw₁
      have hfar : ∀ y ∈ s.candidate, y.vertexId = wLsa.linkStateId →
          hopDistance v l < y.distanceFromRoot := by
        intro y hy hid
        rw [honly y hy hid]
        omega
      let w := (w₁.setDistanceFromRoot (hopDistance v l)).setParent v.vertexId
      refine .inr (.inr ⟨by simp, w, store_requeued hq hcw ?_ reorder_perm reorder_sorted _,
        hlsa.trans hcwlsa, rfl, fun y hy hid => (hfar y hy hid).le, fun u => ?_,
        List.pairwise_singleton _ _, cw, w₁, k, hcwlsa, hw₁, rfl, .inl rfl, fun e => ?_⟩)
      · exact (congrArg GlobalRoutingLSA.linkStateId hlsa).symm
      · refine ⟨fun hu => .inl (List.mem_singleton.mp hu), ?_⟩
        rintro (rfl | ⟨y, hy, hid, heq, -⟩)
        · exact List.mem_singleton_self _
        · exact ((hfar y hy hid).ne heq.symm).elim
      · refine ⟨.inl, ?_⟩
        rintro (he | ⟨y, hy, hid, heq, -⟩)
        · exact he
        · exact ((hfar y hy hid).ne heq.symm).elim

end GlobalRouteManager
end NetGymSim.Internet

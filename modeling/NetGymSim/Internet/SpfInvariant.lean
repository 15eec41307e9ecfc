import NetGymSim.Internet.SpfQueue

/-!
# The invariant of the calculation

While the hops of the current vertex are explored, the tree and the queue are a frontier in
which only the hops still to come are pending. A turn of `SPFNext` takes one of them away;
without any, the first candidate has its distance and becomes the current vertex.
-/

namespace NetGymSim.Internet
open NetGymSim.Lib CandidateQueue
open GlobalRouteManager (hopDistance addToTree Instance)

def At (vs : List SPFVertex) (i : Ipv4Address) (d : ℕ) : Prop :=
  ∃ x ∈ vs, x.vertexId = i ∧ x.distanceFromRoot = d

def Pending (v : SPFVertex) (rest : List Hop) (i j : Ipv4Address) (c : ℕ) : Prop :=
  i = v.vertexId ∧ ∃ h ∈ rest, h.2.linkStateId = j ∧ hopCost h = c

/-- The root has a shortest link to the network `n`, and of all vertices before `n` on a
shortest path the one of the root has the least address. -/
def GlobalRouteManager.RootFirst (G : GlobalRouteManager) (n : Ipv4Address) : Prop :=
  ∃ c, G.lsdb.Edge G.spfroot n c ∧ IsDist G.lsdb.Edge G.spfroot n c ∧
    ∀ u d c', IsDist G.lsdb.Edge G.spfroot u d → G.lsdb.Edge u n c' →
      IsDist G.lsdb.Edge G.spfroot n (d + c') → G.vertexAddr G.spfroot ≤ G.vertexAddr u

/-- The tree has its distances, the queue is not nearer, and a queued vertex knows the parents
over the hops explored so far. -/
structure SpfInv (G : GlobalRouteManager) (s : SpfState) (v : SPFVertex) (rest : List Hop) :
    Prop extends QueueOk G s where
  current : v ∈ s.tree
  rest_hops : ∀ h ∈ rest, h ∈ G.hops v
  farthest : ∀ x ∈ s.tree, x.distanceFromRoot ≤ v.distanceFromRoot
  tree_sorted : s.tree.Pairwise fun a b => a.distanceFromRoot ≤ b.distanceFromRoot
  frontier : Frontier G.lsdb.Edge G.spfroot (At s.tree) (At s.candidate) (Pending v rest)
  nearer : ∀ x ∈ s.tree, ∀ y ∈ s.candidate, x.distanceFromRoot ≤ y.distanceFromRoot
  router_nearer : ∀ x ∈ s.tree, x.vertexType = .routerLSA → ∀ y ∈ s.candidate,
    y.vertexType = .networkLSA → x.distanceFromRoot < y.distanceFromRoot
  tree_exits : ∀ x ∈ s.tree, x.vertexId ≠ G.spfroot → x.ecmpRootExits ≠ []
  queue_exits : ∀ y ∈ s.candidate, y.ecmpRootExits ≠ []
  /-- Of the tree only networks are as far as a current vertex that is a network. -/
  network_ahead : v.vertexType = .networkLSA → ∀ x ∈ s.tree, x.vertexType = .routerLSA →
    x.distanceFromRoot < v.distanceFromRoot
  first_parent : v.vertexType = .networkLSA →
    (v.getParent 0 = some G.spfroot ↔ G.RootFirst v.vertexId)
  parent_sound : ∀ y ∈ s.candidate, ∀ u ∈ y.parents, ∃ x ∈ s.tree, x.vertexId = u ∧
    ∃ c, G.lsdb.Edge u y.vertexId c ∧ x.distanceFromRoot + c = y.distanceFromRoot
  parent_complete : ∀ y ∈ s.candidate, ∀ x ∈ s.tree, ∀ c, G.lsdb.Edge x.vertexId y.vertexId c →
    ¬ Pending v rest x.vertexId y.vertexId c →
    x.distanceFromRoot + c = y.distanceFromRoot → x.vertexId ∈ y.parents
  parent_sorted : ∀ y ∈ s.candidate,
    y.parents.Pairwise fun a b => G.vertexAddr a ≤ G.vertexAddr b

section Pending
variable {v : SPFVertex} {h : Hop} {rest : List Hop} {i j c : ℕ}

theorem pending_cons : Pending v (h :: rest) i j c ↔
    (i = v.vertexId ∧ h.2.linkStateId = j ∧ hopCost h = c) ∨ Pending v rest i j c := by
  simp only [Pending, List.mem_cons, exists_eq_or_imp]
  rw [and_or_left]

theorem not_pending_nil : ¬ Pending v [] i j c := by
  simp [Pending]

end Pending

namespace SpfInv
variable {G : GlobalRouteManager} {s s' : SpfState} {v x : SPFVertex} {h : Hop}
  {rest : List Hop} {fuel : ℕ}

theorem dist (hI : SpfInv G s v rest) (hx : x ∈ s.tree) :
    IsDist G.lsdb.Edge G.spfroot x.vertexId x.distanceFromRoot :=
  hI.frontier.settled_dist _ _ ⟨x, hx, rfl, rfl⟩

theorem root_router (hG : G.Admissible) (hI : SpfInv G s v rest)
    (hv : v.vertexId = G.spfroot) : v.vertexType = .routerLSA := by
  obtain ⟨lsa, hlsa, hid, hr⟩ := hG.root_router
  have heq : v.lsa = lsa :=
    Lsdb.id_injective (hI.tree_stored v hI.current) hlsa (hv.trans hid.symm)
  rw [SPFVertex.vertexType, heq, hr]

theorem hop_mem (hI : SpfInv G s v (h :: rest)) : h ∈ G.hops v :=
  hI.rest_hops h List.mem_cons_self

section Hop
variable (hG : G.Admissible) (hI : SpfInv G s v (h :: rest))
include hG hI

theorem hop_edge : G.lsdb.Edge v.vertexId h.2.linkStateId (hopCost h) :=
  GlobalRouteManager.hop_edge hG.symmetric (hI.tree_stored v hI.current) hI.hop_mem

theorem hop_walk :
    Walk G.lsdb.Edge G.spfroot h.2.linkStateId (v.distanceFromRoot + hopCost h) :=
  (hI.dist hI.current).1.snoc (hI.hop_edge hG)

theorem hopDistance_eq : hopDistance v h.1 = v.distanceFromRoot + hopCost h :=
  Nat.mod_eq_of_lt (hG.sums _ _ _ _ (hI.dist hI.current) (hI.hop_edge hG))

theorem hop_kind : (v.vertexType = .routerLSA ∧ (∃ l, h.1 = some l) ∧ 1 ≤ hopCost h) ∨
    v.vertexType = .networkLSA ∧ h.2.lsType = .routerLSA ∧ hopCost h = 0 :=
  GlobalRouteManager.hop_kind hG (hI.tree_stored v hI.current) hI.hop_mem

theorem hop_link_back (hw : h.2.lsType = .routerLSA) :
    ∃ l ∈ h.2.linkRecords, l.linkId = v.vertexId :=
  GlobalRouteManager.hop_link_back hG.symmetric (hI.tree_stored v hI.current)
    hI.hop_mem hw

theorem skip_inTree (hin : s.status h.2.linkStateId = .inSpfTree) : SpfInv G s v rest := by
  obtain ⟨t, ht, htid⟩ := (hI.inTree _).mp hin
  refine { hI with
    rest_hops := fun h' hh' => hI.rest_hops h' (List.mem_cons_of_mem _ hh')
    frontier := { hI.frontier with relaxed := fun i j d c hi he hp => ?_ }
    parent_complete := fun y hy x hx c he hp heq => ?_ }
  · by_cases hold : Pending v (h :: rest) i j c
    · obtain ⟨rfl, rfl, rfl⟩ := (pending_cons.mp hold).resolve_right hp
      have hd : d = v.distanceFromRoot :=
        (hI.frontier.settled_dist _ _ hi).unique (hI.dist hI.current)
      refine ⟨t.distanceFromRoot, .inl ⟨t, ht, htid, rfl⟩, ?_⟩
      rw [hd]
      exact (htid ▸ hI.dist ht).2 _ (hI.hop_walk hG)
    · exact hI.frontier.relaxed i j d c hi he hold
  · refine hI.parent_complete y hy x hx c he (fun hold => ?_) heq
    obtain ⟨-, hid, -⟩ := (pending_cons.mp hold).resolve_right hp
    exact hI.apart ht hy (htid.trans hid)

theorem skip_nearer {y : SPFVertex} (hy : y ∈ s.candidate)
    (hyid : y.vertexId = h.2.linkStateId) (hlt : y.distanceFromRoot < hopDistance v h.1) :
    SpfInv G s v rest := by
  rw [hI.hopDistance_eq hG] at hlt
  refine { hI with
    rest_hops := fun h' hh' => hI.rest_hops h' (List.mem_cons_of_mem _ hh')
    frontier := { hI.frontier with relaxed := fun i j d c hi he hp => ?_ }
    parent_complete := fun y' hy' x hx c he hp heq => ?_ }
  · by_cases hold : Pending v (h :: rest) i j c
    · obtain ⟨rfl, rfl, rfl⟩ := (pending_cons.mp hold).resolve_right hp
      have hd : d = v.distanceFromRoot :=
        (hI.frontier.settled_dist _ _ hi).unique (hI.dist hI.current)
      exact ⟨y.distanceFromRoot, .inr ⟨y, hy, hyid, rfl⟩, by omega⟩
    · exact hI.frontier.relaxed i j d c hi he hold
  · refine hI.parent_complete y' hy' x hx c he (fun hold => ?_) heq
    obtain ⟨hxv, hid, rfl⟩ := (pending_cons.mp hold).resolve_right hp
    rw [hI.tree_inj hx hI.current hxv] at heq
    rw [hI.queue_inj hy' hy (hid.symm.trans hyid.symm)] at heq
    omega

theorem requeue {w : SPFVertex} (hr : Requeued s s' w) (hw : Instance G fuel v h.1 h.2 s s' w)
    (hout : s.status h.2.linkStateId ≠ .inSpfTree) : SpfInv G s' v rest := by
  have hwid : w.vertexId = h.2.linkStateId := congrArg GlobalRoutingLSA.linkStateId hw.lsa
  have hstored : h.2 ∈ G.lsdb.list := GlobalRouteManager.hop_stored hI.hop_mem
  have hdist : w.distanceFromRoot = v.distanceFromRoot + hopCost h :=
    hw.distance.trans (hI.hopDistance_eq hG)
  have hnear : ∀ y ∈ s.candidate, y.vertexId = w.vertexId →
      w.distanceFromRoot ≤ y.distanceFromRoot := by
    intro y hy hid
    rw [hw.distance]
    exact hw.nearest y hy (hid.trans hwid)
  have hvw : v.distanceFromRoot ≤ w.distanceFromRoot := by omega
  have hq : QueueOk G s' :=
    hr.queueOk hI.toQueueOk (hw.lsa ▸ hstored) (by rwa [hwid])
  -- a queued instance that was not better is replaced by one that is as near
  have hreached : ∀ i d, Reached (At s.tree) (At s.candidate) i d →
      Reached (At s'.tree) (At s'.candidate) i d := by
    rintro i d ⟨k, hk | ⟨y, hy, hyid, rfl⟩, hle⟩
    · exact ⟨k, .inl (hr.tree ▸ hk), hle⟩
    · by_cases hid : y.vertexId = w.vertexId
      · exact ⟨w.distanceFromRoot, .inr ⟨w, (hr.mem w).mpr (.inl rfl), hid ▸ hyid, rfl⟩,
          (hnear y hy hid).trans hle⟩
      · exact ⟨y.distanceFromRoot, .inr ⟨y, (hr.mem y).mpr (.inr ⟨hy, hid⟩), hyid, rfl⟩, hle⟩
  refine { hq with
    current := hr.tree ▸ hI.current
    rest_hops := fun h' hh' => hI.rest_hops h' (List.mem_cons_of_mem _ hh')
    farthest := hr.tree ▸ hI.farthest
    tree_sorted := hr.tree ▸ hI.tree_sorted
    frontier := ⟨hr.tree ▸ hI.frontier.start, hr.tree ▸ hI.frontier.settled_dist, ?_, ?_⟩
    nearer := ?_
    router_nearer := ?_
    tree_exits := hr.tree ▸ hI.tree_exits
    queue_exits := ?_
    network_ahead := hr.tree ▸ hI.network_ahead
    first_parent := hI.first_parent
    parent_sound := ?_
    parent_complete := ?_
    parent_sorted := ?_ }
  · -- the candidates have walks
    rintro i d ⟨y, hy, rfl, rfl⟩
    rcases (hr.mem y).mp hy with rfl | ⟨hy, -⟩
    · rw [hwid, hdist]
      exact hI.hop_walk hG
    · exact hI.frontier.candidate_walk _ _ ⟨y, hy, rfl, rfl⟩
  · -- the hop is relaxed
    intro i j d c hi he hp
    rw [hr.tree] at hi
    by_cases hold : Pending v (h :: rest) i j c
    · obtain ⟨rfl, rfl, rfl⟩ := (pending_cons.mp hold).resolve_right hp
      have hd : d = v.distanceFromRoot :=
        (hI.frontier.settled_dist _ _ hi).unique (hI.dist hI.current)
      exact ⟨w.distanceFromRoot, .inr ⟨w, (hr.mem w).mpr (.inl rfl), hwid, rfl⟩, by omega⟩
    · exact hreached j (d + c) (hI.frontier.relaxed i j d c hi he hold)
  · intro x hx y hy
    rw [hr.tree] at hx
    rcases (hr.mem y).mp hy with rfl | ⟨hy, -⟩
    · exact (hI.farthest x hx).trans hvw
    · exact hI.nearer x hx y hy
  · intro x hx hxr y hy hyn
    rw [hr.tree] at hx
    rcases (hr.mem y).mp hy with rfl | ⟨hy, -⟩
    · have hle := hI.farthest x hx
      rcases hI.hop_kind hG with ⟨-, -, hcost⟩ | ⟨-, hwr, -⟩
      · omega
      · rw [SPFVertex.vertexType, hw.lsa, hwr] at hyn
        cases hyn
    · exact hI.router_nearer x hx hxr y hy hyn
  · intro y hy
    rcases (hr.mem y).mp hy with rfl | ⟨hy, -⟩
    · obtain ⟨w₀, w₁, k, hw₀, hexits, -, -, hmem⟩ := hw.rootExits
      have hne : w₁.ecmpRootExits ≠ [] := by
        refine GlobalRouteManager.rootExits_nonempty (fun hwr => ?_) (fun hvn => ?_)
          (hI.tree_exits v hI.current) hexits
        · rw [SPFVertex.vertexType, hw₀] at hwr
          rw [hw₀]
          exact hI.hop_link_back hG hwr
        · rcases hI.hop_kind hG with ⟨hvr, -⟩ | ⟨-, hwr, -⟩
          · simp [hvn] at hvr
          · rw [SPFVertex.vertexType, hw₀, hwr]
      obtain ⟨nodeExit, he⟩ := List.exists_mem_of_ne_nil _ hne
      exact List.ne_nil_of_mem ((hmem nodeExit).mpr (.inl he))
    · exact hI.queue_exits y hy
  · intro y hy u hu
    rw [hr.tree]
    rcases (hr.mem y).mp hy with rfl | ⟨hy, -⟩
    · rcases (hw.parents u).mp hu with rfl | ⟨y', hy', hid, hd, hu⟩
      · exact ⟨v, hI.current, rfl, hopCost h, hwid ▸ hI.hop_edge hG, hdist.symm⟩
      · rw [hw.distance, ← hd, hwid, ← hid]
        exact hI.parent_sound y' hy' u hu
    · exact hI.parent_sound y hy u hu
  · intro y hy x hx c he hp heq
    rw [hr.tree] at hx
    rcases (hr.mem y).mp hy with rfl | ⟨hy, hne⟩
    · refine (hw.parents _).mpr ?_
      by_cases hold : Pending v (h :: rest) x.vertexId y.vertexId c
      · exact .inl ((pending_cons.mp hold).resolve_right hp).1
      · obtain ⟨k, ⟨t, ht, htid, -⟩ | ⟨y', hy', hid, rfl⟩, hle⟩ :=
          hI.frontier.relaxed _ _ _ c ⟨x, hx, rfl, rfl⟩ he hold
        · exact (hout ((hI.inTree _).mpr ⟨t, ht, htid.trans hwid⟩)).elim
        · have hge := hnear y' hy' hid
          have hd : y'.distanceFromRoot = y.distanceFromRoot := by omega
          refine .inr ⟨y', hy', hid.trans hwid, hd.trans hw.distance, ?_⟩
          rw [← hid] at he hold
          exact hI.parent_complete y' hy' x hx c he hold (heq.trans hd.symm)
    · refine hI.parent_complete y hy x hx c he (fun hold => ?_) heq
      obtain ⟨-, hid, -⟩ := (pending_cons.mp hold).resolve_right hp
      exact hne (hid.symm.trans hwid.symm)
  · intro y hy
    rcases (hr.mem y).mp hy with rfl | ⟨hy, -⟩
    · exact hw.parents_sorted
    · exact hI.parent_sorted y hy

theorem explore (hok : G.explore fuel v h.1 h.2 s = .ok s') : SpfInv G s' v rest := by
  rcases GlobalRouteManager.explore_cases hI.toQueueOk
      (GlobalRouteManager.hop_stored hI.hop_mem) hok with
    ⟨rfl, hin⟩ | ⟨rfl, y, hy, hid, hlt⟩ | ⟨hout, w, hr, hw⟩
  · exact hI.skip_inTree hG hin
  · exact hI.skip_nearer hG hy hid hlt
  · exact hI.requeue hG hr hw hout

end Hop
end SpfInv
end NetGymSim.Internet

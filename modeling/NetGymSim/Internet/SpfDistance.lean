import NetGymSim.Internet.SpfInvariant

/-!
# The tree of shortest paths

From the invariant of one turn to the whole calculation: it keeps the distances whenever it
ends, and it ends unless some router has three links to a network that the root is directly
attached to.
-/

namespace NetGymSim.Internet
open NetGymSim.Lib CandidateQueue
open GlobalRouteManager (hopDistance rootVertex initialState)

namespace GlobalRouteManager
variable (G : GlobalRouteManager)

/-- The tree as it should be, in the order in which its vertices were popped. -/
structure ShortestPathTree (tree : List SPFVertex) : Prop where
  once : (tree.map SPFVertex.vertexId).Nodup
  reachable : ∀ i, (∃ x ∈ tree, x.vertexId = i) ↔ ∃ d, Walk G.lsdb.Edge G.spfroot i d
  distance : ∀ x ∈ tree, IsDist G.lsdb.Edge G.spfroot x.vertexId x.distanceFromRoot
  nondecreasing : tree.Pairwise fun a b => a.distanceFromRoot ≤ b.distanceFromRoot

/-- The router `w` is as near as the network `n` and has three links to it, and the first
parent of `n` is the root. -/
structure Endless (n w : GlobalRoutingLSA) : Prop where
  network : n ∈ G.lsdb.list ∧ n.lsType = .networkLSA
  router : w ∈ G.lsdb.list ∧ w.lsType = .routerLSA
  first : G.RootFirst n.linkStateId
  attached : G.lsdb.Edge n.linkStateId w.linkStateId 0
  equal : ∃ d, IsDist G.lsdb.Edge G.spfroot n.linkStateId d ∧
    IsDist G.lsdb.Edge G.spfroot w.linkStateId d
  many : 3 ≤ (w.linkRecords.filter fun l => l.linkId = n.linkStateId).length

theorem edge_into_network {G : GlobalRouteManager} (hG : G.Admissible) {n : GlobalRoutingLSA}
    (hn : n ∈ G.lsdb.list) (ht : n.lsType = .networkLSA) {u c : ℕ}
    (he : G.lsdb.Edge u n.linkStateId c) : 1 ≤ c := by
  generalize hid : n.linkStateId = i at he
  cases he with
  | link hv _ hl htype => exact hG.metric_pos _ hv _ hl htype
  | attached _ _ hw hwr =>
    rw [Lsdb.id_injective hn hw hid, hwr] at ht
    cases ht

end GlobalRouteManager

namespace SpfInv
variable {G : GlobalRouteManager} {s s' : SpfState} {v y : SPFVertex} {h : Hop}
  {rest : List Hop} {others : List SPFVertex} {fuel : ℕ}

section Explore

theorem outside_far (hI : SpfInv G s v rest) {i l : ℕ} (hout : s.status i ≠ .inSpfTree)
    (hw : Walk G.lsdb.Edge G.spfroot i l) : v.distanceFromRoot ≤ l := by
  rcases hI.frontier.crosses hw with ⟨d, ⟨x, hx, rfl, -⟩, -⟩ | ⟨z, d, ⟨y, hy, -, rfl⟩, hle⟩ |
    ⟨a, b, c, d, ⟨x, hx, hxid, rfl⟩, -, hp, hle⟩
  · exact (hout ((hI.inTree _).mpr ⟨x, hx, rfl⟩)).elim
  · exact (hI.nearer v hI.current y hy).trans hle
  · rw [hI.tree_inj hx hI.current (hxid.trans hp.1)] at hle
    omega

theorem nexthop_total (hG : G.Admissible) (hI : SpfInv G s v (h :: rest)) (hfuel : 2 ≤ fuel)
    (hends : ∀ w, ¬ G.Endless v.lsa w) (hout : s.status h.2.linkStateId ≠ .inSpfTree)
    {w : SPFVertex} (hw : w.lsa = h.2) (distance : ℕ) :
    ∃ w' k, G.spfNexthopCalculation fuel v w h.1 distance = .ok (w', k) := by
  have hkind := hI.hop_kind hG
  obtain ⟨w₁, k, hw₁⟩ : ∃ w₁ k, G.rootExits fuel v w h.1 = .ok (w₁, k) := by
    refine GlobalRouteManager.rootExits_total hfuel (fun hr => ?_) (fun hn => ?_) (fun hr => ?_)
      (hI.root_router hG) (hI.tree_exits v hI.current) fun hn hp => ?_
    · rw [SPFVertex.vertexType, hw] at hr
      rw [hw]
      exact hI.hop_link_back hG hr
    · rcases hkind with ⟨hvr, -⟩ | ⟨-, hwr, -⟩
      · simp [hn] at hvr
      · rw [SPFVertex.vertexType, hw, hwr]
    · rcases hkind with ⟨-, hl, -⟩ | ⟨hvn, -⟩
      · exact hl
      · simp [hr] at hvn
    · rcases hkind with ⟨hvr, -⟩ | ⟨-, hwr, hcost⟩
      · simp [hn] at hvr
      · by_contra hmany
        have hedge := hI.hop_edge hG
        have hdist := hI.dist hI.current
        rw [hcost] at hedge
        exact hends h.2 {
          network := ⟨hI.tree_stored v hI.current, hn⟩
          router := ⟨GlobalRouteManager.hop_stored hI.hop_mem, hwr⟩
          first := (hI.first_parent hn).mp hp
          attached := hedge
          equal := ⟨v.distanceFromRoot, hdist, hdist.1.snoc hedge,
            fun l hl => hI.outside_far hout hl⟩
          many := hw ▸ Nat.le_of_not_lt hmany }
  exact ⟨_, k, GlobalRouteManager.spfNexthopCalculation_ok.mpr ⟨w₁, hw₁, rfl⟩⟩

theorem explore_total (hG : G.Admissible) (hI : SpfInv G s v (h :: rest)) (hfuel : 2 ≤ fuel)
    (hends : ∀ w, ¬ G.Endless v.lsa w) : ∃ s', G.explore fuel v h.1 h.2 s = .ok s' := by
  unfold GlobalRouteManager.explore
  cases hstatus : s.status h.2.linkStateId with
  | inSpfTree => exact ⟨s, rfl⟩
  | notExplored =>
    obtain ⟨w, k, hw⟩ := hI.nexthop_total hG hfuel hends (by simp [hstatus])
      (w := { lsa := h.2 }) rfl (hopDistance v h.1)
    simp only [hw]
    exact ⟨_, rfl⟩
  | candidate =>
    obtain ⟨y, hy, hyid⟩ := (hI.queued _).mp hstatus
    obtain ⟨cw, hfind⟩ := exists_find hy
    rw [hyid] at hfind
    obtain ⟨hcw, hcwid⟩ := find_some hfind
    have hlsa : cw.lsa = h.2 := Lsdb.id_injective (hI.queue_stored cw hcw)
      (GlobalRouteManager.hop_stored hI.hop_mem) hcwid
    obtain ⟨w, k, hw⟩ := hI.nexthop_total hG hfuel hends (by simp [hstatus])
      (w := { lsa := h.2 }) rfl (hopDistance v h.1)
    obtain ⟨w', k', hw'⟩ := hI.nexthop_total hG hfuel hends (by simp [hstatus]) hlsa
      (hopDistance v h.1)
    simp only [hfind]
    split_ifs
    · exact ⟨s, rfl⟩
    · simp only [hw]
      exact ⟨_, rfl⟩
    · simp only [hw']
      exact ⟨_, rfl⟩

theorem explore_tree (hI : SpfInv G s v (h :: rest))
    (hok : G.explore fuel v h.1 h.2 s = .ok s') : s'.tree = s.tree := by
  rcases GlobalRouteManager.explore_cases hI.toQueueOk
      (GlobalRouteManager.hop_stored hI.hop_mem) hok with
    ⟨rfl, -⟩ | ⟨rfl, -⟩ | ⟨-, w, hr, -⟩
  · rfl
  · rfl
  · exact hr.tree

theorem spfNext (hG : G.Admissible) (hI : SpfInv G s v (G.hops v))
    (hok : G.spfNext fuel v s = .ok s') : SpfInv G s' v [] ∧ s'.tree = s.tree := by
  rw [GlobalRouteManager.spfNext_eq hG.symmetric (hI.tree_stored v hI.current)] at hok
  refine foldlM_inv (P := fun s' rest => SpfInv G s' v rest ∧ s'.tree = s.tree)
    (fun s₁ h rest s₂ hs hstep => ?_) ⟨hI, rfl⟩ hok
  exact ⟨hs.1.explore hG hstep, (hs.1.explore_tree hstep).trans hs.2⟩

theorem spfNext_total (hG : G.Admissible) (hI : SpfInv G s v (G.hops v)) (hfuel : 2 ≤ fuel)
    (hends : ∀ w, ¬ G.Endless v.lsa w) : ∃ s', G.spfNext fuel v s = .ok s' := by
  rw [GlobalRouteManager.spfNext_eq hG.symmetric (hI.tree_stored v hI.current)]
  refine foldlM_total (P := fun s rest => SpfInv G s v rest) (fun s h rest hs => ?_) hI
  obtain ⟨s', hs'⟩ := hs.explore_total hG hfuel hends
  exact ⟨s', hs', hs.explore hG hs'⟩

theorem spfNext_endless (hG : G.Admissible) (hI : SpfInv G s v (G.hops v))
    {w : GlobalRoutingLSA} (hend : G.Endless v.lsa w) : G.spfNext fuel v s ≠ .ok s' := by
  intro hok
  obtain ⟨hv, hn⟩ := hend.network
  rw [GlobalRouteManager.spfNext_eq hG.symmetric hv] at hok
  obtain ⟨h, hh, hid, hcost⟩ := GlobalRouteManager.edge_hop hG.symmetric hv hend.attached
  have hw : h.2 = w :=
    Lsdb.id_injective (GlobalRouteManager.hop_stored hh) hend.router.1 hid
  obtain ⟨s₁, rest, s₂, hI, hstep⟩ := foldlM_turn (P := fun s rest => SpfInv G s v rest)
    (fun s h rest s' hs hstep => hs.explore hG hstep) hI hok hh
  obtain ⟨d, hnd, hwd⟩ := hend.equal
  have hd : d = v.distanceFromRoot := hnd.unique (hI.dist hI.current)
  rcases GlobalRouteManager.explore_cases hI.toQueueOk
      (GlobalRouteManager.hop_stored hI.hop_mem) hstep with
    ⟨-, hin⟩ | ⟨-, y, hy, -, hlt⟩ | ⟨-, w', -, hinst⟩
  · -- a router of the tree is nearer than `v`
    obtain ⟨x, hx, hxid⟩ := (hI.inTree _).mp hin
    have hxlsa : x.lsa = w :=
      Lsdb.id_injective (hI.tree_stored x hx) hend.router.1 (hxid.trans hid)
    have hxd : x.distanceFromRoot = d := by
      refine (hI.dist hx).unique ?_
      rw [SPFVertex.vertexId, hxlsa]
      exact hwd
    have := hI.network_ahead hn x hx (by rw [SPFVertex.vertexType, hxlsa, hend.router.2])
    omega
  · rw [hI.hopDistance_eq hG, hcost] at hlt
    have := hI.nearer v hI.current y hy
    omega
  · obtain ⟨w₀, w₁, k, hw₀, hexits, -⟩ := hinst.rootExits
    refine GlobalRouteManager.rootExits_endless (fun hroot => ?_) hn
      ((hI.first_parent hn).mpr hend.first) ?_ hexits
    · have hr := hI.root_router hG hroot
      rw [SPFVertex.vertexType, hn] at hr
      cases hr
    · rw [linksBack, hw₀, hw]
      exact hend.many

end Explore

section Advance

theorem first_mem (hc : s.candidate = y :: others) : y ∈ s.candidate :=
  hc ▸ List.mem_cons_self

theorem others_mem (hc : s.candidate = y :: others) {z : SPFVertex} (hz : z ∈ others) :
    z ∈ s.candidate :=
  hc ▸ List.mem_cons_of_mem y hz

theorem nothing_pending (hI : SpfInv G s v []) :
    Frontier G.lsdb.Edge G.spfroot (At s.tree) (At s.candidate) fun _ _ _ => False :=
  { hI.frontier with
    relaxed := fun i j d c hi he _ => hI.frontier.relaxed i j d c hi he not_pending_nil }

variable (hG : G.Admissible) (hI : SpfInv G s v []) (hc : s.candidate = y :: others)
include hI hc

theorem first_precedes {z : SPFVertex} (hz : z ∈ others) : MayPrecede y z :=
  (List.pairwise_cons.mp (hc ▸ hI.sorted)).1 z hz

theorem first_nearest {z : SPFVertex} (hz : z ∈ s.candidate) :
    y.distanceFromRoot ≤ z.distanceFromRoot := by
  rw [hc] at hz
  rcases List.mem_cons.mp hz with rfl | hz
  · exact Nat.le_refl _
  · exact (hI.first_precedes hc hz).le

theorem first_dist : IsDist G.lsdb.Edge G.spfroot y.vertexId y.distanceFromRoot := by
  refine hI.nothing_pending.nearest ⟨y, first_mem hc, rfl, rfl⟩ ?_ ?_
  · rintro k ⟨x, hx, hid, -⟩
    exact hI.apart hx (first_mem hc) hid
  · rintro z k ⟨x, hx, -, rfl⟩
    exact hI.first_nearest hc hx

theorem addToTree_queueOk : QueueOk G (GlobalRouteManager.addToTree y others s) where
  tree_stored := by
    intro x hx
    rcases List.mem_append.mp hx with hx | hx
    · exact hI.tree_stored x hx
    · rw [List.mem_singleton.mp hx]
      exact hI.queue_stored y (first_mem hc)
  queue_stored := fun x hx => hI.queue_stored x (others_mem hc hx)
  tree_nodup := by
    change ((s.tree ++ [y]).map SPFVertex.vertexId).Nodup
    rw [List.map_append, List.nodup_append]
    refine ⟨hI.tree_nodup, List.nodup_singleton _, fun a ha b hb => ?_⟩
    obtain ⟨x, hx, rfl⟩ := List.mem_map.mp ha
    rw [List.mem_singleton.mp hb]
    exact hI.apart hx (first_mem hc)
  queue_nodup := by
    have := hI.queue_nodup
    rw [hc, List.map_cons] at this
    exact this.of_cons
  inTree := by
    intro i
    change Function.update s.status y.vertexId .inSpfTree i = _ ↔ ∃ x ∈ s.tree ++ [y], _
    by_cases hi : i = y.vertexId
    · subst hi
      simp only [Function.update_self, true_iff]
      exact ⟨y, List.mem_append_right _ (List.mem_singleton_self y), rfl⟩
    · rw [Function.update_of_ne hi, hI.inTree]
      constructor
      · rintro ⟨x, hx, rfl⟩
        exact ⟨x, List.mem_append_left _ hx, rfl⟩
      · rintro ⟨x, hx, rfl⟩
        rcases List.mem_append.mp hx with hx | hx
        · exact ⟨x, hx, rfl⟩
        · exact (hi (by rw [List.mem_singleton.mp hx])).elim
  queued := by
    intro i
    change Function.update s.status y.vertexId .inSpfTree i = _ ↔ ∃ x ∈ others, _
    have hnd := hI.queue_nodup
    rw [hc, List.map_cons, List.nodup_cons] at hnd
    by_cases hi : i = y.vertexId
    · subst hi
      simp only [Function.update_self, reduceCtorEq, false_iff]
      exact fun ⟨x, hx, hid⟩ => hnd.1 (List.mem_map.mpr ⟨x, hx, hid⟩)
    · rw [Function.update_of_ne hi, hI.queued]
      constructor
      · rintro ⟨x, hx, rfl⟩
        rw [hc] at hx
        rcases List.mem_cons.mp hx with rfl | hx
        · exact (hi rfl).elim
        · exact ⟨x, hx, rfl⟩
      · rintro ⟨x, hx, rfl⟩
        exact ⟨x, others_mem hc hx, rfl⟩
  sorted := (List.pairwise_cons.mp (hc ▸ hI.sorted)).2

include hG

theorem parent_of_network (hn : y.vertexType = .networkLSA) {u d c : ℕ}
    (hu : IsDist G.lsdb.Edge G.spfroot u d) (he : G.lsdb.Edge u y.vertexId c)
    (hy : IsDist G.lsdb.Edge G.spfroot y.vertexId (d + c)) : u ∈ y.parents := by
  have hcost : 1 ≤ c := GlobalRouteManager.edge_into_network hG
    (hI.queue_stored y (first_mem hc)) hn he
  have hsum : d + c = y.distanceFromRoot := hy.unique (hI.first_dist hc)
  obtain ⟨k, ⟨x, hx, rfl, rfl⟩, -⟩ := hI.nothing_pending.nearer hu.1 fun z k hz => by
    obtain ⟨x, hx, -, rfl⟩ := hz
    have := hI.first_nearest hc hx
    omega
  refine hI.parent_complete y (first_mem hc) x hx c he not_pending_nil ?_
  rw [(hI.dist hx).unique hu, hsum]

theorem first_parent_root (hn : y.vertexType = .networkLSA) :
    y.getParent 0 = some G.spfroot ↔ G.RootFirst y.vertexId := by
  have hy := hI.first_dist hc
  have hroot : IsDist G.lsdb.Edge G.spfroot G.spfroot 0 :=
    hI.frontier.settled_dist _ _ hI.frontier.start
  have hsorted := hI.parent_sorted y (first_mem hc)
  constructor
  · intro hp
    obtain ⟨others', hcons⟩ : ∃ others', y.parents = G.spfroot :: others' := by
      cases hps : y.parents with
      | nil => simp [SPFVertex.getParent, hps] at hp
      | cons p ps =>
        rw [SPFVertex.getParent, hps] at hp
        exact ⟨ps, by simpa using hp⟩
    obtain ⟨x, hx, hxid, c, he, hsum⟩ := hI.parent_sound y (first_mem hc) G.spfroot
      (hcons ▸ List.mem_cons_self)
    have hx0 : x.distanceFromRoot = 0 := (hxid ▸ hI.dist hx).unique hroot
    refine ⟨c, he, ?_, fun u d c' hu he' hd => ?_⟩
    · rw [← hsum, hx0, Nat.zero_add] at hy
      exact hy
    · have hmem := hI.parent_of_network hG hc hn hu he' hd
      rw [hcons] at hmem hsorted
      rcases List.mem_cons.mp hmem with rfl | hmem
      · exact Nat.le_refl _
      · exact (List.pairwise_cons.mp hsorted).1 u hmem
  · rintro ⟨c, he, hdc, hleast⟩
    have hmem : G.spfroot ∈ y.parents :=
      hI.parent_of_network hG hc hn hroot he (by rwa [Nat.zero_add])
    cases hps : y.parents with
    | nil => simp [hps] at hmem
    | cons p ps =>
      obtain ⟨x, hx, rfl, c', he', hsum⟩ := hI.parent_sound y (first_mem hc) p
        (hps ▸ List.mem_cons_self)
      have hle := hleast _ _ c' (hI.dist hx) he' (hsum ▸ hy)
      rw [hps] at hmem hsorted
      have hge : G.vertexAddr x.vertexId ≤ G.vertexAddr G.spfroot := by
        rcases List.mem_cons.mp hmem with heq | hmem
        · rw [heq]
        · exact (List.pairwise_cons.mp hsorted).1 _ hmem
      rw [SPFVertex.getParent, hps, hG.vertexAddr_injective (Nat.le_antisymm hle hge)]
      rfl

theorem addToTree : SpfInv G (GlobalRouteManager.addToTree y others s) y (G.hops y) := by
  have hy := hI.first_dist hc
  have hstored := hI.queue_stored y (first_mem hc)
  have htree : ∀ {x}, x ∈ s.tree ++ [y] → x ∈ s.tree ∨ x = y := fun hx =>
    (List.mem_append.mp hx).imp_right List.mem_singleton.mp
  refine { hI.addToTree_queueOk hc with
    current := List.mem_append_right _ (List.mem_singleton_self y)
    rest_hops := fun h hh => hh
    farthest := fun x hx => ?_
    tree_sorted := ?_
    frontier := ⟨?_, ?_, ?_, ?_⟩
    nearer := fun x hx z hz => ?_
    router_nearer := fun x hx hr z hz hn => ?_
    tree_exits := fun x hx hne => ?_
    queue_exits := fun z hz => hI.queue_exits z (others_mem hc hz)
    network_ahead := fun hn x hx hr => ?_
    first_parent := hI.first_parent_root hG hc
    parent_sound := fun z hz u hu => ?_
    parent_complete := fun z hz x hx c he hp heq => ?_
    parent_sorted := fun z hz => hI.parent_sorted z (others_mem hc hz) }
  · rcases htree hx with hx | rfl
    · exact hI.nearer x hx y (first_mem hc)
    · exact Nat.le_refl _
  · refine List.pairwise_append.mpr ⟨hI.tree_sorted, List.pairwise_singleton _ _, ?_⟩
    intro a ha b hb
    rw [List.mem_singleton.mp hb]
    exact hI.nearer a ha y (first_mem hc)
  · obtain ⟨x, hx, hid⟩ := hI.frontier.start
    exact ⟨x, List.mem_append_left _ hx, hid⟩
  · rintro i d ⟨x, hx, rfl, rfl⟩
    rcases htree hx with hx | rfl
    · exact hI.dist hx
    · exact hy
  · rintro i d ⟨z, hz, rfl, rfl⟩
    exact hI.frontier.candidate_walk _ _ ⟨z, others_mem hc hz, rfl, rfl⟩
  · rintro i j d c ⟨x, hx, rfl, rfl⟩ he hp
    rcases htree hx with hx | rfl
    · obtain ⟨k, ⟨t, ht, htk⟩ | ⟨z, hz, hzk⟩, hle⟩ :=
        hI.frontier.relaxed _ j _ c ⟨x, hx, rfl, rfl⟩ he not_pending_nil
      · exact ⟨k, .inl ⟨t, List.mem_append_left _ ht, htk⟩, hle⟩
      · rw [hc] at hz
        rcases List.mem_cons.mp hz with rfl | hz
        · exact ⟨k, .inl ⟨z, List.mem_append_right _ (List.mem_singleton_self z), hzk⟩, hle⟩
        · exact ⟨k, .inr ⟨z, hz, hzk⟩, hle⟩
    · obtain ⟨h, hh, hid, hcost⟩ := GlobalRouteManager.edge_hop hG.symmetric hstored he
      exact (hp ⟨rfl, h, hh, hid, hcost⟩).elim
  · rcases htree hx with hx | rfl
    · exact hI.nearer x hx z (others_mem hc hz)
    · exact (hI.first_precedes hc hz).le
  · rcases htree hx with hx | rfl
    · exact hI.router_nearer x hx hr z (others_mem hc hz) hn
    · rcases mayPrecede_iff.mp (hI.first_precedes hc hz) with hlt | ⟨-, htype⟩
      · exact hlt
      · rw [htype hn] at hr
        cases hr
  · rcases htree hx with hx | rfl
    · exact hI.tree_exits x hx hne
    · exact hI.queue_exits x (first_mem hc)
  · rcases htree hx with hx | rfl
    · exact hI.router_nearer x hx hr y (first_mem hc) hn
    · rw [hn] at hr
      cases hr
  · obtain ⟨x, hx, hxu⟩ := hI.parent_sound z (others_mem hc hz) u hu
    exact ⟨x, List.mem_append_left _ hx, hxu⟩
  · rcases htree hx with hx | rfl
    · exact hI.parent_complete z (others_mem hc hz) x hx c he not_pending_nil heq
    · obtain ⟨h, hh, hid, hcost⟩ := GlobalRouteManager.edge_hop hG.symmetric hstored he
      exact (hp ⟨rfl, h, hh, hid, hcost⟩).elim

end Advance

section Runs
variable {turns : ℕ}

theorem spfLoop_ok (hG : G.Admissible) (hI : SpfInv G s v (G.hops v))
    (hok : G.spfLoop fuel turns v s = .ok s') :
    (∃ v', SpfInv G s' v' []) ∧ s'.candidate = [] ∧
      ∀ x ∈ s'.tree, (x ∈ s.tree ∧ x ≠ v) ∨
        ∃ s₁ s₂, SpfInv G s₁ x (G.hops x) ∧ G.spfNext fuel x s₁ = .ok s₂ := by
  induction turns generalizing v s with
  | zero => simp [GlobalRouteManager.spfLoop] at hok
  | succ turns ih =>
    obtain ⟨s₁, hnext, hrest⟩ := bind_eq_ok.mp hok
    obtain ⟨hI₁, htree⟩ := hI.spfNext hG hnext
    have hprocessed : ∀ x ∈ s₁.tree, (x ∈ s.tree ∧ x ≠ v) ∨
        ∃ s₁ s₂, SpfInv G s₁ x (G.hops x) ∧ G.spfNext fuel x s₁ = .ok s₂ := by
      intro x hx
      by_cases hxv : x = v
      · exact .inr ⟨s, s₁, hxv ▸ hI, hxv ▸ hnext⟩
      · exact .inl ⟨htree ▸ hx, hxv⟩
    cases hc : s₁.candidate with
    | nil =>
      rw [hc] at hrest
      cases hrest
      exact ⟨⟨v, hI₁⟩, hc, hprocessed⟩
    | cons y others =>
      rw [hc] at hrest
      obtain ⟨hend, hempty, hdone⟩ := ih (hI₁.addToTree hG hc) hrest
      refine ⟨hend, hempty, fun x hx => ?_⟩
      rcases hdone x hx with ⟨hmem, hxy⟩ | hdone
      · rcases List.mem_append.mp hmem with hmem | hmem
        · exact hprocessed x hmem
        · exact (hxy (List.mem_singleton.mp hmem)).elim
      · exact .inr hdone

theorem tree_length (hI : SpfInv G s v rest) : s.tree.length ≤ G.lsdb.list.length := by
  have hsub : s.tree.map SPFVertex.vertexId ⊆
      G.lsdb.list.map GlobalRoutingLSA.linkStateId := by
    intro i hi
    obtain ⟨x, hx, rfl⟩ := List.mem_map.mp hi
    exact List.mem_map_of_mem (hI.tree_stored x hx)
  have hle := (List.subperm_of_subset hI.tree_nodup hsub).length_le
  simpa only [List.length_map] using hle

theorem spfLoop_total (hG : G.Admissible) (hI : SpfInv G s v (G.hops v)) (hfuel : 2 ≤ fuel)
    (hends : ∀ n w, ¬ G.Endless n w) (hturns : G.lsdb.list.length < s.tree.length + turns) :
    ∃ s', G.spfLoop fuel turns v s = .ok s' := by
  induction turns generalizing v s with
  | zero =>
    have := hI.tree_length
    omega
  | succ turns ih =>
    obtain ⟨s₁, hnext⟩ := hI.spfNext_total hG hfuel (hends v.lsa)
    obtain ⟨hI₁, htree⟩ := hI.spfNext hG hnext
    cases hc : s₁.candidate with
    | nil => exact ⟨s₁, bind_eq_ok.mpr ⟨s₁, hnext, by rw [hc]; rfl⟩⟩
    | cons y others =>
      have hlen : (GlobalRouteManager.addToTree y others s₁).tree.length = s.tree.length + 1 := by
        simp [GlobalRouteManager.addToTree, htree]
      obtain ⟨s', hs'⟩ := ih (hI₁.addToTree hG hc) (by omega)
      exact ⟨s', bind_eq_ok.mpr ⟨s₁, hnext, by rw [hc]; exact hs'⟩⟩

end Runs

theorem shortestPathTree (hI : SpfInv G s v []) (hempty : s.candidate = []) :
    G.ShortestPathTree s.tree where
  once := hI.tree_nodup
  reachable := by
    intro i
    constructor
    · rintro ⟨x, hx, rfl⟩
      exact ⟨x.distanceFromRoot, (hI.dist hx).1⟩
    · rintro ⟨d, hw⟩
      obtain ⟨_, x, hx, hid, -⟩ := hI.nothing_pending.complete (fun z k hz => by
        obtain ⟨x, hx, -⟩ := hz
        simp [hempty] at hx) hw
      exact ⟨x, hx, hid⟩
  distance := fun x hx => hI.dist hx
  nondecreasing := hI.tree_sorted

theorem initial (hG : G.Admissible) {lsa : GlobalRoutingLSA} (hlsa : lsa ∈ G.lsdb.list)
    (hid : lsa.linkStateId = G.spfroot) (hr : lsa.lsType = .routerLSA) :
    SpfInv G (initialState lsa) (rootVertex lsa) (G.hops (rootVertex lsa)) := by
  have hmem : ∀ {x}, x ∈ (initialState lsa).tree → x = rootVertex lsa := List.mem_singleton.mp
  have hroot : ∀ i d, At (initialState lsa).tree i d → i = G.spfroot ∧ d = 0 := by
    rintro i d ⟨x, hx, rfl, rfl⟩
    rw [hmem hx]
    exact ⟨hid, rfl⟩
  exact {
    tree_stored := fun x hx => by
      rw [hmem hx]
      exact hlsa
    queue_stored := by simp [initialState]
    tree_nodup := List.nodup_singleton _
    queue_nodup := List.nodup_nil
    inTree := fun i => by
      simp only [initialState, Function.update_apply, List.mem_singleton, exists_eq_left]
      by_cases hi : i = lsa.linkStateId
      · simp [hi, rootVertex, SPFVertex.vertexId]
      · simp [hi, rootVertex, SPFVertex.vertexId, Ne.symm hi]
    queued := fun i => by
      simp only [initialState, Function.update_apply]
      by_cases hi : i = lsa.linkStateId
      · simp [hi]
      · simp [hi]
    sorted := .nil
    current := List.mem_singleton_self _
    rest_hops := fun h hh => hh
    farthest := fun x hx => by rw [hmem hx]
    tree_sorted := List.pairwise_singleton _ _
    frontier := {
      start := ⟨rootVertex lsa, List.mem_singleton_self _, hid, rfl⟩
      settled_dist := fun i d hi => by
        obtain ⟨rfl, rfl⟩ := hroot i d hi
        exact ⟨.nil, fun l _ => Nat.zero_le l⟩
      candidate_walk := fun i d hi => by
        obtain ⟨x, hx, -⟩ := hi
        simp [initialState] at hx
      relaxed := fun i j d c hi he hp => by
        obtain ⟨rfl, rfl⟩ := hroot i d hi
        have he' : G.lsdb.Edge (rootVertex lsa).vertexId j c := by
          rwa [SPFVertex.vertexId, rootVertex, hid]
        obtain ⟨h, hh, hhid, hcost⟩ :=
          GlobalRouteManager.edge_hop hG.symmetric (v := rootVertex lsa) hlsa he'
        exact (hp ⟨hid.symm, h, hh, hhid, hcost⟩).elim }
    nearer := by simp [initialState]
    router_nearer := by simp [initialState]
    tree_exits := fun x hx hne => by
      rw [hmem hx] at hne
      exact (hne hid).elim
    queue_exits := by simp [initialState]
    network_ahead := fun hn => by
      change lsa.lsType = _ at hn
      simp [hr] at hn
    first_parent := fun hn => by
      change lsa.lsType = _ at hn
      simp [hr] at hn
    parent_sound := by simp [initialState]
    parent_complete := by simp [initialState]
    parent_sorted := by simp [initialState] }

end SpfInv

namespace GlobalRouteManager
variable {G : GlobalRouteManager} {s : SpfState} {fuel : ℕ}

section Calculate
variable (hG : G.Admissible) (hstub : G.shortCircuits = .ok false)
include hG hstub

theorem spfCalculate_eq (fuel : ℕ) : ∃ lsa, SpfInv G (initialState lsa) (rootVertex lsa)
    (G.hops (rootVertex lsa)) ∧
      G.spfCalculate fuel = G.spfLoop fuel fuel (rootVertex lsa) (initialState lsa) := by
  obtain ⟨lsa, hlsa, hid, hr⟩ := hG.root_router
  refine ⟨lsa, .initial hG hlsa hid hr, ?_⟩
  unfold spfCalculate
  rw [Lsdb.getLSA_eq_some.mpr ⟨hlsa, hid⟩, hstub]
  rfl

theorem spfCalculate_tree (hok : G.spfCalculate fuel = .ok s) : G.ShortestPathTree s.tree := by
  obtain ⟨lsa, hI, heq⟩ := spfCalculate_eq hG hstub fuel
  obtain ⟨⟨v, hend⟩, hempty, -⟩ := hI.spfLoop_ok hG (heq ▸ hok)
  exact hend.shortestPathTree hempty

theorem spfCalculate_total (hends : ∀ n w, ¬ G.Endless n w)
    (hfuel : G.lsdb.list.length + 2 ≤ fuel) : ∃ s, G.spfCalculate fuel = .ok s := by
  obtain ⟨lsa, hI, heq⟩ := spfCalculate_eq hG hstub fuel
  rw [heq]
  exact hI.spfLoop_total hG (by omega) hends (by omega)

theorem spfCalculate_endless {n w : GlobalRoutingLSA} (hend : G.Endless n w) :
    G.spfCalculate fuel ≠ .ok s := by
  intro hok
  obtain ⟨lsa, hI, heq⟩ := spfCalculate_eq hG hstub fuel
  obtain ⟨⟨v, hend'⟩, hempty, hdone⟩ := hI.spfLoop_ok hG (heq ▸ hok)
  obtain ⟨d, hn, -⟩ := hend.equal
  obtain ⟨x, hx, hid⟩ := ((hend'.shortestPathTree hempty).reachable _).mpr ⟨d, hn.1⟩
  have hlsa : x.lsa = n :=
    Lsdb.id_injective (hend'.tree_stored x hx) hend.network.1 hid
  rcases hdone x hx with ⟨hroot, hne⟩ | ⟨s₁, s₂, hI₁, hnext⟩
  · exact hne (List.mem_singleton.mp hroot)
  · exact hI₁.spfNext_endless hG (hlsa ▸ hend) hnext

end Calculate

/-- The calculation ends with the tree of shortest paths if and only if no router has three
links to a directly attached network that is as near and has the root as first parent. -/
theorem spf_computes_shortest_paths (G : GlobalRouteManager) (hG : G.Admissible)
    (hstub : G.shortCircuits = .ok false) :
    (∃ enough, ∀ fuel, enough ≤ fuel →
      ∃ s, G.spfCalculate fuel = .ok s ∧ G.ShortestPathTree s.tree) ↔
        ¬ ∃ n w, G.Endless n w := by
  constructor
  · rintro ⟨enough, hruns⟩ ⟨n, w, hend⟩
    obtain ⟨s, hok, -⟩ := hruns enough (Nat.le_refl enough)
    exact spfCalculate_endless hG hstub hend hok
  · intro hends
    refine ⟨G.lsdb.list.length + 2, fun fuel hfuel => ?_⟩
    obtain ⟨s, hok⟩ := spfCalculate_total hG hstub (fun n w h => hends ⟨n, w, h⟩) hfuel
    exact ⟨s, hok, spfCalculate_tree hG hstub hok⟩

/-! ### One network between two routers -/

section SharedNetwork

def sharedNetwork (addrs : List Ipv4Address) : GlobalRouteManager where
  lsdb := {
    list := [
      { lsType := .routerLSA, linkStateId := 1, linkRecords := [⟨100, 11, .transitNetwork, 1⟩] },
      { lsType := .routerLSA, linkStateId := 2,
        linkRecords := (21 :: addrs).map fun addr => ⟨100, addr, .transitNetwork, 1⟩ },
      { lsType := .networkLSA, linkStateId := 100, attachedRouters := 11 :: 21 :: addrs }]
    sorted := by simp }
  spfroot := 1
  nNodes := 2
  findOutgoingInterfaceId := fun _ _ => 1
  vertexAddr := id

variable {addrs : List Ipv4Address}

theorem sharedNetwork_edge {u v c : ℕ} (he : (sharedNetwork addrs).lsdb.Edge u v c) :
    (u = 1 ∨ u = 2 ∨ u = 100) ∧ c ≤ 1 := by
  cases he with
  | @link lsa l hlsa hr hl _ =>
    simp only [sharedNetwork, List.mem_cons, List.not_mem_nil, or_false] at hlsa
    rcases hlsa with rfl | rfl | rfl
    · simp only [List.mem_cons, List.not_mem_nil, or_false] at hl
      simp [hl]
    · obtain ⟨addr, -, rfl⟩ := List.mem_map.mp hl
      simp
    · simp at hr
  | @attached n _ _ hn ht =>
    simp only [sharedNetwork, List.mem_cons, List.not_mem_nil, or_false] at hn
    rcases hn with rfl | rfl | rfl
    · simp at ht
    · simp at ht
    · simp

theorem sharedNetwork_walks (addrs : List Ipv4Address) :
    Walk (sharedNetwork addrs).lsdb.Edge 1 100 1 ∧ Walk (sharedNetwork addrs).lsdb.Edge 1 2 1 ∧
      (sharedNetwork addrs).lsdb.Edge 1 100 1 ∧ (sharedNetwork addrs).lsdb.Edge 100 2 0 := by
  have hout : (sharedNetwork addrs).lsdb.Edge 1 100 1 :=
    .link (v := { lsType := .routerLSA, linkStateId := 1,
                  linkRecords := [⟨100, 11, .transitNetwork, 1⟩] })
      (l := ⟨100, 11, .transitNetwork, 1⟩) (by simp [sharedNetwork]) rfl (by simp) (by simp)
  have hin : (sharedNetwork addrs).lsdb.Edge 100 2 0 :=
    .attached (v := { lsType := .networkLSA, linkStateId := 100,
                      attachedRouters := 11 :: 21 :: addrs })
      (w := { lsType := .routerLSA, linkStateId := 2, linkRecords :=
                (21 :: addrs).map fun addr => ⟨100, addr, .transitNetwork, 1⟩ })
      (l := ⟨100, 21, .transitNetwork, 1⟩) (by simp [sharedNetwork]) rfl
      (by simp [sharedNetwork]) rfl (by simp) rfl rfl
  have hnet : Walk (sharedNetwork addrs).lsdb.Edge 1 100 1 := Walk.nil.snoc hout
  exact ⟨hnet, hnet.snoc hin, hout, hin⟩

theorem sharedNetwork_admissible (hsym : (sharedNetwork addrs).lsdb.Symmetric) :
    (sharedNetwork addrs).Admissible where
  symmetric := hsym
  metric_pos := by
    intro v hv l hl _
    simp only [sharedNetwork, List.mem_cons, List.not_mem_nil, or_false] at hv
    rcases hv with rfl | rfl | rfl
    · simp only [List.mem_cons, List.not_mem_nil, or_false] at hl
      simp [hl]
    · obtain ⟨addr, -, rfl⟩ := List.mem_map.mp hl
      exact Nat.le_refl 1
    · simp at hl
  sums := by
    intro u v d c hu he
    obtain ⟨hnet, hrouter, -, -⟩ := sharedNetwork_walks addrs
    obtain ⟨hcases, hc⟩ := sharedNetwork_edge he
    have hd : d ≤ 1 := by
      rcases hcases with rfl | rfl | rfl
      · exact (hu.2 0 .nil).trans (Nat.zero_le 1)
      · exact hu.2 1 hrouter
      · exact hu.2 1 hnet
    omega
  root_router := ⟨_, List.mem_cons_self, rfl, rfl⟩
  vertexAddr_injective := fun _ _ h => h

theorem sharedNetwork_dist (hsym : (sharedNetwork addrs).lsdb.Symmetric) :
    IsDist (sharedNetwork addrs).lsdb.Edge 1 100 1 ∧
      IsDist (sharedNetwork addrs).lsdb.Edge 1 2 1 := by
  obtain ⟨hnet, hrouter, -, -⟩ := sharedNetwork_walks addrs
  have hmin : ∀ l, Walk (sharedNetwork addrs).lsdb.Edge 1 100 l → 1 ≤ l := by
    intro l hl
    generalize hi : (100 : Ipv4Address) = i at hl
    cases hl with
    | nil => cases hi
    | @snoc _ _ d c _ he =>
      subst hi
      have : 1 ≤ c := edge_into_network (sharedNetwork_admissible hsym)
        (n := { lsType := .networkLSA, linkStateId := 100,
                attachedRouters := 11 :: 21 :: addrs }) (by simp [sharedNetwork]) rfl he
      omega
  refine ⟨⟨hnet, hmin⟩, hrouter, fun l hl => ?_⟩
  generalize hi : (2 : Ipv4Address) = i at hl
  cases hl with
  | nil => cases hi
  | snoc hw he =>
    cases he with
    | @link lsa r hlsa _ hr _ =>
      -- no link leads to a router
      simp only [sharedNetwork, List.mem_cons, List.not_mem_nil, or_false] at hlsa
      rcases hlsa with rfl | rfl | rfl
      · simp only [List.mem_cons, List.not_mem_nil, or_false] at hr
        simp [hr] at hi
      · obtain ⟨addr, -, rfl⟩ := List.mem_map.mp hr
        simp at hi
      · simp at hr
    | @attached n w r hn ht =>
      simp only [sharedNetwork, List.mem_cons, List.not_mem_nil, or_false] at hn
      rcases hn with rfl | rfl | rfl
      · simp at ht
      · simp at ht
      · exact hmin _ hw

theorem sharedNetwork_symmetric : (sharedNetwork []).lsdb.Symmetric :=
  ⟨by decide, by decide, by decide⟩

theorem sharedNetwork_symmetric_three : (sharedNetwork [22, 23]).lsdb.Symmetric :=
  ⟨by decide, by decide, by decide⟩

theorem spf_computes_shortest_paths_shared : ∃ enough, ∀ fuel, enough ≤ fuel →
    ∃ s, (sharedNetwork []).spfCalculate fuel = .ok s ∧
      (sharedNetwork []).ShortestPathTree s.tree := by
  refine (spf_computes_shortest_paths (sharedNetwork [])
    (sharedNetwork_admissible sharedNetwork_symmetric) (by decide)).mpr ?_
  rintro ⟨n, w, hend⟩
  have hfew : ∀ w ∈ (sharedNetwork []).lsdb.list, w.linkRecords.length < 3 := by decide
  have hle := List.length_filter_le (fun l => l.linkId = n.linkStateId) w.linkRecords
  exact absurd (hend.many.trans hle) (Nat.not_le_of_lt (hfew w hend.router.1))

/-- The link database is as the calculation assumes, and no bound on the turns is enough. -/
theorem three_links_endless : (sharedNetwork [22, 23]).Admissible ∧
    (sharedNetwork [22, 23]).shortCircuits = .ok false ∧
      ∀ fuel s, (sharedNetwork [22, 23]).spfCalculate fuel ≠ .ok s := by
  have hG := sharedNetwork_admissible sharedNetwork_symmetric_three
  obtain ⟨hnet, hrouter⟩ := sharedNetwork_dist sharedNetwork_symmetric_three
  obtain ⟨-, -, hout, hin⟩ := sharedNetwork_walks [22, 23]
  refine ⟨hG, by decide, fun fuel s => spfCalculate_endless hG (by decide)
    (n := { lsType := .networkLSA, linkStateId := 100, attachedRouters := [11, 21, 22, 23] })
    (w := { lsType := .routerLSA, linkStateId := 2, linkRecords :=
              [21, 22, 23].map fun addr => ⟨100, addr, .transitNetwork, 1⟩ }) ?_⟩
  exact {
    network := ⟨by decide, rfl⟩
    router := ⟨by decide, rfl⟩
    first := by
      refine ⟨1, hout, hnet, fun u d c _ he _ => ?_⟩
      change 1 ≤ u
      rcases (sharedNetwork_edge he).1 with rfl | rfl | rfl <;> decide
    attached := hin
    equal := ⟨1, hnet, hrouter⟩
    many := by decide }

end SharedNetwork
end GlobalRouteManager
end NetGymSim.Internet

import NetGymSim.Internet.SpfDistance

/-!
# Where the exits of a vertex come from

The exits of every vertex are the contributions of its neighbours over the hops that end at
its distance, and an assertion on their number fails exactly where a network with more than
one leads to a router as near as itself.
-/

namespace NetGymSim.Internet
open NetGymSim.Lib CandidateQueue
open GlobalRouteManager (hopDistance Instance rootVertex initialState)

namespace GlobalRouteManager
variable (G : GlobalRouteManager)

def contribution (u : SPFVertex) (h : Hop) : List NodeExit :=
  if u.vertexId = G.spfroot then
    match h.2.lsType with
    | .routerLSA =>
      match h.1, (linksBack { lsa := h.2 } u)[0]? with
      | some l, some r => [(r.linkData, G.findOutgoingInterfaceId l.linkData 4294967295)]
      | _, _ => []
    | .networkLSA =>
      [(0, G.findOutgoingInterfaceId h.2.linkStateId h.2.networkLSANetworkMask)]
  else
    match u.vertexType with
    | .networkLSA =>
      if u.getParent 0 = some G.spfroot then
        match (linksBack { lsa := h.2 } u)[0]?, u.ecmpRootExits with
        | some r, nodeExit :: _ => [(r.linkData, nodeExit.2)]
        | _, _ => []
      else u.ecmpRootExits.take 1
    | .routerLSA => u.ecmpRootExits

/-- Assertions that fail each time the exits of a vertex behind `u` are computed. -/
def failedAssertion (u : SPFVertex) : ℕ :=
  if u.vertexId ≠ G.spfroot ∧ u.vertexType = .networkLSA ∧ 1 < u.ecmpRootExits.length then 1
  else 0

variable {G} {u w w' : SPFVertex} {h : Hop} {fuel k : ℕ}

theorem getRootExitDirection_eq_ok {nodeExit : NodeExit}
    (hok : u.getRootExitDirection = .ok (nodeExit, k)) :
    ∃ others, u.ecmpRootExits = nodeExit :: others ∧
      k = if 1 < u.ecmpRootExits.length then 1 else 0 := by
  unfold SPFVertex.getRootExitDirection at hok
  cases he : u.ecmpRootExits with
  | nil => simp [he] at hok
  | cons e others =>
    simp only [he, Except.ok.injEq, Prod.mk.injEq] at hok
    obtain ⟨rfl, rfl⟩ := hok
    refine ⟨others, rfl, ?_⟩
    cases others with
    | nil => simp
    | cons e' others => simp

theorem rootExits_contribution (hw : w.lsa = h.2)
    (hback : u.vertexType = .networkLSA → ∃ l ∈ h.2.linkRecords, l.linkId = u.vertexId)
    (hok : G.rootExits fuel u w h.1 = .ok (w', k)) :
    w'.ecmpRootExits = G.contribution u h ∧ k = G.failedAssertion u := by
  have hlinks : linksBack { lsa := h.2 } u = linksBack w u := by rw [linksBack, linksBack, hw]
  unfold rootExits at hok
  unfold contribution failedAssertion
  rw [hlinks, ← hw]
  by_cases hroot : u.vertexId = G.spfroot
  · simp only [if_pos hroot] at hok ⊢
    cases ht : w.lsa.lsType with
    | routerLSA =>
      simp only [SPFVertex.vertexType, ht, spfGetNextLink_none] at hok
      split at hok
      · rename_i l r hl hr
        cases hok
        simp [hl, hr, hroot, SPFVertex.setRootExitDirection]
      · cases hok
    | networkLSA =>
      simp only [SPFVertex.vertexType, ht] at hok
      cases hok
      simp [hroot, SPFVertex.setRootExitDirection]
  · simp only [if_neg hroot] at hok ⊢
    cases ht : u.vertexType with
    | networkLSA =>
      simp only [ht] at hok
      by_cases hp : u.getParent 0 = some G.spfroot
      · simp only [if_pos hp] at hok ⊢
        obtain ⟨r, hr⟩ := linksBack_head (hw ▸ hback ht)
        obtain ⟨nodeExit, he, rfl⟩ := exitsBehindNetwork_ok hr hok
        obtain ⟨others, hexits, rfl⟩ := getRootExitDirection_eq_ok he
        simp [hr, hexits, hroot, SPFVertex.setRootExitDirection]
      · simp only [if_neg hp] at hok ⊢
        obtain ⟨⟨nodeExit, failed⟩, he, hok⟩ := bind_eq_ok.mp hok
        cases hok
        obtain ⟨others, hexits, rfl⟩ := getRootExitDirection_eq_ok he
        simp [hexits, hroot, SPFVertex.setRootExitDirection]
    | routerLSA =>
      simp only [ht] at hok
      cases hok
      simp [SPFVertex.inheritAllRootExitDirections]

theorem contribution_nodup (hu : u.vertexId ≠ G.spfroot → u.ecmpRootExits.Nodup) :
    (G.contribution u h).Nodup := by
  unfold contribution
  split
  · split
    · split
      · exact List.nodup_singleton _
      · exact List.nodup_nil
    · exact List.nodup_singleton _
  · rename_i hroot
    split
    · split
      · split
        · exact List.nodup_singleton _
        · exact List.nodup_nil
      · exact (hu hroot).sublist (List.take_sublist 1 _)
    · exact hu hroot

end GlobalRouteManager

def Explored (G : GlobalRouteManager) (v : SPFVertex) (done : List Hop) (u : SPFVertex)
    (h : Hop) : Prop :=
  if u = v then h ∈ done else h ∈ G.hops u

def ExitsOf (G : GlobalRouteManager) (tree : List SPFVertex) (explored : SPFVertex → Hop → Prop)
    (y : SPFVertex) : Prop :=
  y.ecmpRootExits.Nodup ∧ ∀ nodeExit, nodeExit ∈ y.ecmpRootExits ↔ ∃ u ∈ tree, ∃ h,
    explored u h ∧ h.2 = y.lsa ∧ u.distanceFromRoot + hopCost h = y.distanceFromRoot ∧
      nodeExit ∈ G.contribution u h

structure ExitInv (G : GlobalRouteManager) (s : SpfState) (v : SPFVertex)
    (done rest : List Hop) : Prop extends SpfInv G s v rest where
  hops_eq : G.hops v = done ++ rest
  known : ∀ u ∈ s.tree, ∀ h, Explored G v done u h →
    s.status h.2.linkStateId = .inSpfTree ∨ ∃ y ∈ s.candidate,
      y.vertexId = h.2.linkStateId ∧ y.distanceFromRoot ≤ u.distanceFromRoot + hopCost h
  queue : ∀ y ∈ s.candidate, ExitsOf G s.tree (Explored G v done) y
  tree : ∀ y ∈ s.tree, y.vertexId ≠ G.spfroot →
    ExitsOf G s.tree (fun u h => h ∈ G.hops u) y
  first_parents : ∀ y ∈ s.tree, y.vertexType = .networkLSA →
    (y.getParent 0 = some G.spfroot ↔ G.RootFirst y.vertexId)
  assertions : s.failedAssertions = 0 ↔ ∀ u ∈ s.tree, ∀ h, Explored G v done u h →
    IsDist G.lsdb.Edge G.spfroot h.2.linkStateId u.distanceFromRoot → G.failedAssertion u = 0

section Explored
variable {G : GlobalRouteManager} {u v : SPFVertex} {h h' : Hop} {done rest : List Hop}

theorem explored_append : Explored G v (done ++ [h]) u h' ↔
    Explored G v done u h' ∨ u = v ∧ h' = h := by
  unfold Explored
  by_cases hu : u = v
  · simp [hu]
  · simp [hu]

theorem explored_all (hops : G.hops v = done) : Explored G v done u h ↔ h ∈ G.hops u := by
  unfold Explored
  by_cases hu : u = v
  · rw [if_pos hu, hu, hops]
  · rw [if_neg hu]

theorem explored_none : Explored G v [] u h ↔ u ≠ v ∧ h ∈ G.hops u := by
  unfold Explored
  by_cases hu : u = v
  · simp [hu]
  · simp [hu]

end Explored

namespace ExitInv
variable {G : GlobalRouteManager} {s s' : SpfState} {v w y : SPFVertex} {h : Hop}
  {done rest : List Hop} {others : List SPFVertex} {fuel : ℕ}

theorem failedAssertion_router {u : SPFVertex} (hu : u.vertexType = .routerLSA) :
    G.failedAssertion u = 0 := by
  simp [GlobalRouteManager.failedAssertion, hu]

section Explore
variable (hG : G.Admissible) (hI : ExitInv G s v done (h :: rest))
include hI

theorem hops_step : G.hops v = (done ++ [h]) ++ rest := by
  rw [hI.hops_eq, List.append_assoc, List.singleton_append]

theorem exits_unchanged (hy : y ∈ s.candidate)
    (hnone : h.2 = y.lsa → v.distanceFromRoot + hopCost h ≠ y.distanceFromRoot) :
    ExitsOf G s.tree (Explored G v (done ++ [h])) y := by
  refine ⟨(hI.queue y hy).1, fun e => ((hI.queue y hy).2 e).trans ⟨?_, ?_⟩⟩
  · rintro ⟨u, hu, h', hh', hrest⟩
    exact ⟨u, hu, h', explored_append.mpr (.inl hh'), hrest⟩
  · rintro ⟨u, hu, h', hh', hlsa, hsum, he⟩
    rcases explored_append.mp hh' with hh' | ⟨rfl, rfl⟩
    · exact ⟨u, hu, h', hh', hlsa, hsum, he⟩
    · exact (hnone hlsa hsum).elim

theorem assertions_unchanged (hfree : IsDist G.lsdb.Edge G.spfroot h.2.linkStateId
      v.distanceFromRoot → G.failedAssertion v = 0) :
    s.failedAssertions = 0 ↔ ∀ u ∈ s.tree, ∀ h', Explored G v (done ++ [h]) u h' →
      IsDist G.lsdb.Edge G.spfroot h'.2.linkStateId u.distanceFromRoot →
        G.failedAssertion u = 0 := by
  rw [hI.assertions]
  constructor
  · intro hall u hu h' hh'
    rcases explored_append.mp hh' with hh' | ⟨rfl, rfl⟩
    · exact hall u hu h' hh'
    · exact hfree
  · intro hall u hu h' hh'
    exact hall u hu h' (explored_append.mpr (.inl hh'))

include hG

theorem skip_inTree (hin : s.status h.2.linkStateId = .inSpfTree) :
    ExitInv G s v (done ++ [h]) rest := by
  obtain ⟨t, ht, htid⟩ := (hI.inTree _).mp hin
  refine { hI.toSpfInv.skip_inTree hG hin with
    hops_eq := hI.hops_step
    known := fun u hu h' hh' => ?_
    queue := fun y hy => hI.exits_unchanged hy fun hlsa => ?_
    tree := hI.tree
    first_parents := hI.first_parents
    assertions := hI.assertions_unchanged fun hdist => ?_ }
  · rcases explored_append.mp hh' with hh' | ⟨rfl, rfl⟩
    · exact hI.known u hu h' hh'
    · exact .inl hin
  · exact (hI.apart ht hy (htid.trans (congrArg GlobalRoutingLSA.linkStateId hlsa))).elim
  · rcases hI.hop_kind hG with ⟨hr, -⟩ | ⟨hn, hwr, -⟩
    · exact failedAssertion_router hr
    · -- a router of the tree is nearer than a network that is explored
      have htlsa : t.lsa = h.2 := Lsdb.id_injective (hI.tree_stored t ht)
        (GlobalRouteManager.hop_stored hI.hop_mem) htid
      have hlt := hI.network_ahead hn t ht (by rw [SPFVertex.vertexType, htlsa, hwr])
      have heq := (htid ▸ hI.dist ht).unique hdist
      omega

theorem skip_nearer (hy : y ∈ s.candidate) (hyid : y.vertexId = h.2.linkStateId)
    (hlt : y.distanceFromRoot < hopDistance v h.1) : ExitInv G s v (done ++ [h]) rest := by
  have hI' := hI.toSpfInv.skip_nearer hG hy hyid hlt
  rw [hI.hopDistance_eq hG] at hlt
  refine { hI' with
    hops_eq := hI.hops_step
    known := fun u hu h' hh' => ?_
    queue := fun y' hy' => hI.exits_unchanged hy' fun hlsa heq => ?_
    tree := hI.tree
    first_parents := hI.first_parents
    assertions := hI.assertions_unchanged fun _ => ?_ }
  · rcases explored_append.mp hh' with hh' | ⟨rfl, rfl⟩
    · exact hI.known u hu h' hh'
    · exact .inr ⟨y, hy, hyid, hlt.le⟩
  · rw [hI.queue_inj hy' hy ((congrArg GlobalRoutingLSA.linkStateId hlsa).symm.trans
      hyid.symm)] at heq
    omega
  · rcases hI.hop_kind hG with ⟨hr, -⟩ | ⟨-, -, hcost⟩
    · exact failedAssertion_router hr
    · have := hI.nearer v hI.current y hy
      omega

theorem equal_dist (hn : v.vertexType = .networkLSA)
    (hout : s.status h.2.linkStateId ≠ .inSpfTree) :
    IsDist G.lsdb.Edge G.spfroot h.2.linkStateId v.distanceFromRoot := by
  rcases hI.hop_kind hG with ⟨hr, -⟩ | ⟨-, -, hcost⟩
  · simp [hn] at hr
  · have hwalk := hI.hop_walk hG
    rw [hcost] at hwalk
    exact ⟨hwalk, fun l hl => hI.outside_far hout hl⟩

theorem requeue (hr : Requeued s s' w) (hw : Instance G fuel v h.1 h.2 s s' w)
    (hout : s.status h.2.linkStateId ≠ .inSpfTree) : ExitInv G s' v (done ++ [h]) rest := by
  have hI' := hI.toSpfInv.requeue hG hr hw hout
  have hwid : w.vertexId = h.2.linkStateId := congrArg GlobalRoutingLSA.linkStateId hw.lsa
  have hwdb : w.lsa ∈ G.lsdb.list := hw.lsa ▸ GlobalRouteManager.hop_stored hI.hop_mem
  have hdist : w.distanceFromRoot = v.distanceFromRoot + hopCost h :=
    hw.distance.trans (hI.hopDistance_eq hG)
  obtain ⟨w₀, w₁, k, hw₀, hexits, hfailed, hnodup, hmem⟩ := hw.rootExits
  obtain ⟨hw₁, rfl⟩ := GlobalRouteManager.rootExits_contribution hw₀ (fun hn => by
    rcases hI.hop_kind hG with ⟨hr, -⟩ | ⟨-, hwr, -⟩
    · simp [hn] at hr
    · exact hI.hop_link_back hG hwr) hexits
  refine { hI' with
    hops_eq := hI.hops_step
    known := fun u hu h' hh' => ?_
    queue := fun y hy => ?_
    tree := hr.tree ▸ hI.tree
    first_parents := hr.tree ▸ hI.first_parents
    assertions := ?_ }
  · rw [hr.tree] at hu
    rcases explored_append.mp hh' with hh' | ⟨rfl, rfl⟩
    · rcases hI.known u hu h' hh' with hin | ⟨y, hy, hyid, hle⟩
      · refine .inl ?_
        rw [hr.status, Function.update_of_ne (fun hid => hout ?_), hin]
        rw [← hwid, ← hid, hin]
      · by_cases hid : y.vertexId = w.vertexId
        · have hge := hw.nearest y hy (hid.trans hwid)
          rw [← hw.distance] at hge
          exact .inr ⟨w, (hr.mem w).mpr (.inl rfl), hid.symm.trans hyid, hge.trans hle⟩
        · exact .inr ⟨y, (hr.mem y).mpr (.inr ⟨hy, hid⟩), hyid, hle⟩
    · exact .inr ⟨w, (hr.mem w).mpr (.inl rfl), hwid, hdist.le⟩
  · rw [hr.tree]
    rcases (hr.mem y).mp hy with rfl | ⟨hy, hne⟩
    · refine ⟨?_, fun e => (hmem e).trans ⟨?_, ?_⟩⟩
      · rcases hnodup with heq | hnd
        · rw [heq, hw₁]
          exact GlobalRouteManager.contribution_nodup fun hne => (hI.tree v hI.current hne).1
        · exact hnd
      · rintro (he | ⟨y₀, hy₀, hid, hd, he⟩)
        · exact ⟨v, hI.current, h, explored_append.mpr (.inr ⟨rfl, rfl⟩), hw.lsa.symm,
            hdist.symm, hw₁ ▸ he⟩
        · obtain ⟨u, hu, h', hh', hlsa, hsum, he⟩ := ((hI.queue y₀ hy₀).2 e).mp he
          have hsame : y₀.lsa = y.lsa :=
            Lsdb.id_injective (hI.queue_stored y₀ hy₀) hwdb (hid.trans hwid.symm)
          exact ⟨u, hu, h', explored_append.mpr (.inl hh'), hlsa.trans hsame,
            hsum.trans (hd.trans hw.distance.symm), he⟩
      · rintro ⟨u, hu, h', hh', hlsa, hsum, he⟩
        rcases explored_append.mp hh' with hh' | ⟨rfl, rfl⟩
        · -- an explored hop left an instance in the queue
          have hid' : h'.2.linkStateId = h.2.linkStateId := by rw [hlsa, hw.lsa]
          rcases hI.known u hu h' hh' with hin | ⟨y₀, hy₀, hid, hle⟩
          · exact (hout (hid' ▸ hin)).elim
          · have hge := hw.nearest y₀ hy₀ (hid.trans hid')
            have hd : y₀.distanceFromRoot = hopDistance v h.1 := by
              rw [← hw.distance] at hge ⊢
              omega
            have hsame : h'.2 = y₀.lsa := hlsa.trans
              (Lsdb.id_injective hwdb (hI.queue_stored y₀ hy₀)
                (hwid.trans (hid.trans hid').symm))
            exact .inr ⟨y₀, hy₀, hid.trans hid', hd, ((hI.queue y₀ hy₀).2 e).mpr
              ⟨u, hu, h', hh', hsame, hsum.trans (hw.distance.trans hd.symm), he⟩⟩
        · exact .inl (hw₁ ▸ he)
    · exact hI.exits_unchanged hy fun hlsa => (hne (by
        rw [hwid, hlsa]
        rfl)).elim
  · rw [hr.tree, hfailed, Nat.add_eq_zero_iff, hI.assertions]
    constructor
    · rintro ⟨hall, hzero⟩ u hu h' hh' hd
      rcases explored_append.mp hh' with hh' | ⟨rfl, rfl⟩
      · exact hall u hu h' hh' hd
      · exact hzero
    · intro hall
      refine ⟨fun u hu h' hh' => hall u hu h' (explored_append.mpr (.inl hh')), ?_⟩
      cases ht : v.vertexType with
      | routerLSA => exact failedAssertion_router ht
      | networkLSA =>
        exact hall v hI.current h (explored_append.mpr (.inr ⟨rfl, rfl⟩))
          (hI.equal_dist hG ht hout)

theorem explore (hok : G.explore fuel v h.1 h.2 s = .ok s') :
    ExitInv G s' v (done ++ [h]) rest := by
  rcases GlobalRouteManager.explore_cases hI.toQueueOk
      (GlobalRouteManager.hop_stored hI.hop_mem) hok with
    ⟨rfl, hin⟩ | ⟨rfl, y, hy, hid, hlt⟩ | ⟨hout, w, hr, hw⟩
  · exact hI.skip_inTree hG hin
  · exact hI.skip_nearer hG hy hid hlt
  · exact hI.requeue hG hr hw hout

end Explore

theorem spfNext (hG : G.Admissible) (hI : ExitInv G s v [] (G.hops v))
    (hok : G.spfNext fuel v s = .ok s') : ExitInv G s' v (G.hops v) [] := by
  rw [GlobalRouteManager.spfNext_eq hG.symmetric (hI.tree_stored v hI.current)] at hok
  obtain ⟨done, hend⟩ := foldlM_inv (P := fun s rest => ∃ done, ExitInv G s v done rest)
    (fun s₁ h rest s₂ ⟨done, hs⟩ hstep => ⟨done ++ [h], hs.explore hG hstep⟩) ⟨[], hI⟩ hok
  have hdone : G.hops v = done := hend.hops_eq.trans (List.append_nil done)
  exact hdone ▸ hend

section Advance
variable (hG : G.Admissible) (hI : ExitInv G s v (G.hops v) [])
  (hc : s.candidate = y :: others)
include hI hc

theorem popped_ne {u : SPFVertex} (hu : u ∈ s.tree) : u ≠ y :=
  fun heq => hI.apart hu (SpfInv.first_mem hc) (congrArg SPFVertex.vertexId heq)

include hG

theorem popped_late {z : SPFVertex} (hz : z ∈ s.tree ++ [y]) (hh : h ∈ G.hops y)
    (hlsa : h.2 = z.lsa) : y.distanceFromRoot + hopCost h ≠ z.distanceFromRoot := by
  have hy := SpfInv.first_mem hc
  have hkind := GlobalRouteManager.hop_kind hG (hI.queue_stored y hy) hh
  rcases List.mem_append.mp hz with hz | hz
  · have hle := hI.nearer z hz y hy
    rcases hkind with ⟨-, -, hcost⟩ | ⟨hn, hwr, -⟩
    · omega
    · have := hI.router_nearer z hz (by rw [SPFVertex.vertexType, ← hlsa, hwr]) y hy hn
      omega
  · obtain rfl := List.mem_singleton.mp hz
    rcases hkind with ⟨-, -, hcost⟩ | ⟨hn, hwr, -⟩
    · omega
    · rw [SPFVertex.vertexType, ← hlsa, hwr] at hn
      cases hn

theorem addToTree : ExitInv G (GlobalRouteManager.addToTree y others s) y [] (G.hops y) := by
  have hy := SpfInv.first_mem hc
  have hnone : ∀ {u h}, u ∈ s.tree ++ [y] → Explored G y [] u h → u ∈ s.tree ∧ h ∈ G.hops u := by
    intro u h hu hh
    obtain ⟨hne, hh⟩ := explored_none.mp hh
    exact ⟨(List.mem_append.mp hu).resolve_right fun h => hne (List.mem_singleton.mp h), hh⟩
  have hsome : ∀ {u h}, u ∈ s.tree → h ∈ G.hops u → Explored G y [] u h :=
    fun hu hh => explored_none.mpr ⟨hI.popped_ne hc hu, hh⟩
  -- the tree with the new vertex gives a vertex the same exits
  have hsame : ∀ z ∈ s.tree ++ [y], ExitsOf G s.tree (fun u h => h ∈ G.hops u) z →
      ExitsOf G (s.tree ++ [y]) (fun u h => h ∈ G.hops u) z := by
    rintro z hz ⟨hnd, hmem⟩
    refine ⟨hnd, fun e => (hmem e).trans ⟨?_, ?_⟩⟩
    · rintro ⟨u, hu, hrest⟩
      exact ⟨u, List.mem_append_left _ hu, hrest⟩
    · rintro ⟨u, hu, h, hh, hlsa, hsum, he⟩
      rcases List.mem_append.mp hu with hu | hu
      · exact ⟨u, hu, h, hh, hlsa, hsum, he⟩
      · obtain rfl := List.mem_singleton.mp hu
        exact (hI.popped_late hG hc hz hh hlsa hsum).elim
  refine { hI.toSpfInv.addToTree hG hc with
    hops_eq := rfl
    known := fun u hu h hh => ?_
    queue := fun z hz => ?_
    tree := fun z hz hne => ?_
    first_parents := fun z hz hn => ?_
    assertions := ?_ }
  · obtain ⟨hu, hh⟩ := hnone hu hh
    change Function.update s.status y.vertexId .inSpfTree _ = _ ∨ _
    by_cases hid : h.2.linkStateId = y.vertexId
    · exact .inl (by rw [hid, Function.update_self])
    · rw [Function.update_of_ne hid]
      refine (hI.known u hu h ((explored_all rfl).mpr hh)).imp_right ?_
      rintro ⟨z, hz, hzid, hle⟩
      rw [hc] at hz
      rcases List.mem_cons.mp hz with rfl | hz
      · exact (hid hzid.symm).elim
      · exact ⟨z, hz, hzid, hle⟩
  · obtain ⟨hnd, hmem⟩ := hI.queue z (SpfInv.others_mem hc hz)
    refine ⟨hnd, fun e => (hmem e).trans ⟨?_, ?_⟩⟩
    · rintro ⟨u, hu, h, hh, hrest⟩
      exact ⟨u, List.mem_append_left _ hu, h, hsome hu ((explored_all rfl).mp hh), hrest⟩
    · rintro ⟨u, hu, h, hh, hrest⟩
      obtain ⟨hu, hh⟩ := hnone hu hh
      exact ⟨u, hu, h, (explored_all rfl).mpr hh, hrest⟩
  · refine hsame z hz ?_
    rcases List.mem_append.mp hz with hz | hz
    · exact hI.tree z hz hne
    · rw [List.mem_singleton.mp hz]
      obtain ⟨hnd, hmem⟩ := hI.queue y hy
      refine ⟨hnd, fun e => ?_⟩
      simpa only [explored_all] using hmem e
  · rcases List.mem_append.mp hz with hz | hz
    · exact hI.first_parents z hz hn
    · rw [List.mem_singleton.mp hz] at hn ⊢
      exact hI.first_parent_root hG hc hn
  · refine hI.assertions.trans ⟨fun hall u hu h hh => ?_, fun hall u hu h hh => ?_⟩
    · obtain ⟨hu, hh⟩ := hnone hu hh
      exact hall u hu h ((explored_all rfl).mpr hh)
    · exact hall u (List.mem_append_left _ hu) h (hsome hu ((explored_all rfl).mp hh))

end Advance

theorem initial (hG : G.Admissible) {lsa : GlobalRoutingLSA} (hlsa : lsa ∈ G.lsdb.list)
    (hid : lsa.linkStateId = G.spfroot) (hr : lsa.lsType = .routerLSA) :
    ExitInv G (initialState lsa) (rootVertex lsa) [] (G.hops (rootVertex lsa)) := by
  have hmem : ∀ {x}, x ∈ (initialState lsa).tree → x = rootVertex lsa := List.mem_singleton.mp
  refine { SpfInv.initial hG hlsa hid hr with
    hops_eq := rfl
    known := fun u hu h hh => ((explored_none.mp hh).1 (hmem hu)).elim
    queue := by simp [initialState]
    tree := fun z hz hne => ?_
    first_parents := fun z hz hn => ?_
    assertions := ⟨fun _ u hu h hh => ((explored_none.mp hh).1 (hmem hu)).elim, fun _ => rfl⟩ }
  · rw [hmem hz] at hne
    exact (hne hid).elim
  · rw [hmem hz] at hn
    change lsa.lsType = _ at hn
    simp [hr] at hn

theorem spfLoop_ok {turns : ℕ} (hG : G.Admissible) (hI : ExitInv G s v [] (G.hops v))
    (hok : G.spfLoop fuel turns v s = .ok s') : ∃ v', ExitInv G s' v' (G.hops v') [] := by
  induction turns generalizing v s with
  | zero => simp [GlobalRouteManager.spfLoop] at hok
  | succ turns ih =>
    obtain ⟨s₁, hnext, hrest⟩ := bind_eq_ok.mp hok
    have hI₁ := hI.spfNext hG hnext
    cases hc : s₁.candidate with
    | nil =>
      rw [hc] at hrest
      cases hrest
      exact ⟨v, hI₁⟩
    | cons y others =>
      rw [hc] at hrest
      exact ih (hI₁.addToTree hG hc) hrest

end ExitInv

namespace GlobalRouteManager
variable {G : GlobalRouteManager} {s : SpfState} {fuel : ℕ}

theorem spfCalculate_exits (hG : G.Admissible) (hstub : G.shortCircuits = .ok false)
    (hok : G.spfCalculate fuel = .ok s) : ∃ v, ExitInv G s v (G.hops v) [] := by
  obtain ⟨lsa, hlsa, hid, hr⟩ := hG.root_router
  unfold spfCalculate at hok
  rw [Lsdb.getLSA_eq_some.mpr ⟨hlsa, hid⟩, hstub] at hok
  exact (ExitInv.initial hG hlsa hid hr).spfLoop_ok hG hok

end GlobalRouteManager
end NetGymSim.Internet

import NetGymSim.Internet.SpfNextHops

/-!
# All equal-cost exits

What each vertex hands to the ones behind it, and that the exit lists are the first hops of
all shortest paths if and only if nothing counts that the calculation overlooks: one exit is
read of a network, and of the records of a router back to a directly attached network or to
the root only the first.
-/

namespace NetGymSim.Internet
open NetGymSim.Lib

namespace GlobalRouteManager
variable (G : GlobalRouteManager) (remoteAddr : GlobalRoutingLinkRecord → Ipv4Address)

structure Unambiguous : Prop where
  pointToPoint : ∀ l, G.RootLink l → l.linkType = .pointToPoint →
    ∀ w ∈ G.lsdb.list, w.linkStateId = l.linkId → ∀ r,
      (w.linkRecords.filter fun r => r.linkId = G.spfroot)[0]? = some r →
        r.linkData = remoteAddr l
  network : ∀ l, G.RootLink l → l.linkType = .transitNetwork →
    ∀ n ∈ G.lsdb.list, n.linkStateId = l.linkId →
      G.findOutgoingInterfaceId n.linkStateId n.networkLSANetworkMask = G.interfaceOf l
  oneExit : ∀ n w, G.Behind n w → ∀ e e', G.RootExit remoteAddr n.linkStateId e →
    G.RootExit remoteAddr n.linkStateId e' → e = e'
  oneLink : ∀ n w, G.Behind n w → ∀ i, G.DirectlyAttached n.linkStateId i →
    (w.linkRecords.filter fun r => r.linkId = n.linkStateId).length = 1

def FindsAllExits (s : SpfState) : Prop :=
  s.failedAssertions = 0 ∧ ∀ x ∈ s.tree, x.vertexId ≠ G.spfroot →
    x.ecmpRootExits.Nodup ∧
      ∀ nodeExit, nodeExit ∈ x.ecmpRootExits ↔ G.RootExit remoteAddr x.vertexId nodeExit

def firstBack (w : GlobalRoutingLSA) (u : Ipv4Address) : Option GlobalRoutingLinkRecord :=
  (w.linkRecords.filter fun r => r.linkId = u)[0]?

theorem firstBack_mem {w : GlobalRoutingLSA} {u : Ipv4Address} {r : GlobalRoutingLinkRecord}
    (h : firstBack w u = some r) : r ∈ w.linkRecords ∧ r.linkId = u := by
  obtain ⟨hr, hid⟩ := List.mem_filter.mp (List.mem_of_getElem? h)
  exact ⟨hr, by simpa using hid⟩

section Contributions
variable {G remoteAddr} {s : SpfState} {v u x : SPFVertex} {h : Hop} {done : List Hop}
  {e : NodeExit}

inductive Contributed (G : GlobalRouteManager) (u x : SPFVertex) (h : Hop) : Prop
  | link {l r : GlobalRoutingLinkRecord} : u.vertexId = G.spfroot → G.RootLink l →
      l.linkId = x.vertexId → h.1 = some l → x.vertexType = .routerLSA →
      l.linkType = .pointToPoint → firstBack x.lsa G.spfroot = some r →
      G.contribution u h = [(r.linkData, G.interfaceOf l)] → Contributed G u x h
  | network {l : GlobalRoutingLinkRecord} : u.vertexId = G.spfroot → G.RootLink l →
      l.linkId = x.vertexId → h.1 = some l → x.vertexType = .networkLSA →
      l.linkType = .transitNetwork → G.contribution u h =
        [(0, G.findOutgoingInterfaceId x.lsa.linkStateId x.lsa.networkLSANetworkMask)] →
      Contributed G u x h
  | attached {r : GlobalRoutingLinkRecord} {e' : NodeExit} {others : List NodeExit} :
      u.vertexId ≠ G.spfroot → u.vertexType = .networkLSA → G.Behind u.lsa x.lsa →
      firstBack x.lsa u.vertexId = some r → G.RootFirst u.vertexId →
      u.ecmpRootExits = e' :: others → G.contribution u h = [(r.linkData, e'.2)] →
      Contributed G u x h
  | behind : u.vertexId ≠ G.spfroot → u.vertexType = .networkLSA → G.Behind u.lsa x.lsa →
      ¬ G.RootFirst u.vertexId → G.contribution u h = u.ecmpRootExits.take 1 →
      Contributed G u x h
  | router : u.vertexId ≠ G.spfroot → u.vertexType = .routerLSA →
      u.distanceFromRoot < x.distanceFromRoot → G.contribution u h = u.ecmpRootExits →
      Contributed G u x h

theorem contributed (hG : G.Admissible) (hE : ExitInv G s v done []) (hu : u ∈ s.tree)
    (hx : x ∈ s.tree) (hh : h ∈ G.hops u) (hlsa : h.2 = x.lsa)
    (hsum : u.distanceFromRoot + hopCost h = x.distanceFromRoot) : Contributed G u x h := by
  have hustored := hE.tree_stored u hu
  have hkind := hop_kind hG hustored hh
  have hback := hop_link_back hG.symmetric hustored hh
  have hedge := hop_edge hG.symmetric hustored hh
  have hxd := hE.dist hx
  have hud := hE.dist hu
  rw [← hsum] at hxd
  by_cases hroot : u.vertexId = G.spfroot
  · obtain ⟨lsa, hlsadb, hid, hr⟩ := hG.root_router
    have hur : u.vertexType = .routerLSA := by
      rw [SPFVertex.vertexType, Lsdb.id_injective hustored hlsadb (hroot.trans hid.symm), hr]
    obtain ⟨l, hl, hns, h₁, hget⟩ := (mem_hops_router hur).mp hh
    obtain ⟨hwdb, hwid⟩ := Lsdb.getLSA_eq_some.mp hget
    have hlid : l.linkId = x.vertexId := by rw [← hwid, hlsa]; rfl
    have hu0 : u.distanceFromRoot = 0 :=
      hud.unique (hroot ▸ ⟨.nil, fun k _ => Nat.zero_le k⟩)
    have hcost : hopCost h = l.metric := by rw [hopCost, h₁]; rfl
    rw [hu0, hcost, Nat.zero_add, ← hlid] at hxd
    have hlink : G.RootLink l := ⟨⟨u.lsa, hustored, hroot, hl⟩, hns, hxd⟩
    have htypes := link_type hG.symmetric hustored hl hns hwdb hwid
    have hxtype : x.vertexType = h.2.lsType := by rw [SPFVertex.vertexType, hlsa]
    cases ht : h.2.lsType with
    | routerLSA =>
      obtain ⟨r, hr⟩ := linksBack_head (w := { lsa := h.2 }) (v := u) (hback ht)
      refine .link (r := r) hroot hlink hlid h₁ (hxtype.trans ht) (htypes.1.mp ht) ?_ ?_
      · rw [← hlsa, ← hroot]
        exact hr
      · simp [contribution, hroot, ht, h₁, hr, interfaceOf]
    | networkLSA =>
      refine .network hroot hlink hlid h₁ (hxtype.trans ht) (htypes.2.mp ht) ?_
      simp [contribution, hroot, ht, ← hlsa]
  · rcases hkind with ⟨hur, -, hcost⟩ | ⟨hun, hwr, hcost⟩
    · exact .router hroot hur (by omega) (by simp [contribution, hroot, hur])
    · have hbehind : G.Behind u.lsa x.lsa := {
        network := ⟨hustored, hun⟩
        router := ⟨hE.tree_stored x hx, hlsa ▸ hwr⟩
        attached := by
          rw [hcost, hlsa] at hedge
          exact hedge
        equal := by
          rw [hcost] at hxd
          exact ⟨_, hud, hxd⟩ }
      obtain ⟨r, hr⟩ := linksBack_head (w := { lsa := h.2 }) (v := u) (hback hwr)
      have hne : u.ecmpRootExits ≠ [] := hE.tree_exits u hu hroot
      by_cases hfirst : G.RootFirst u.vertexId
      · have hp := (hE.first_parents u hu hun).mpr hfirst
        cases hexits : u.ecmpRootExits with
        | nil => exact (hne hexits).elim
        | cons e' others =>
          refine .attached (r := r) hroot hun hbehind ?_ hfirst hexits ?_
          · rw [← hlsa]
            exact hr
          · simp [contribution, hroot, hun, hp, hr, hexits]
      · have hp : u.getParent 0 ≠ some G.spfroot :=
          fun hp => hfirst ((hE.first_parents u hu hun).mp hp)
        exact .behind hroot hun hbehind hfirst (by simp [contribution, hroot, hun, hp])

theorem hop_before (hG : G.Admissible) (hE : ExitInv G s v done [])
    (hT : G.ShortestPathTree s.tree) (hx : x ∈ s.tree) {i : Ipv4Address} {d c : ℕ}
    (hi : IsDist G.lsdb.Edge G.spfroot i d) (he : G.lsdb.Edge i x.vertexId c)
    (hd : IsDist G.lsdb.Edge G.spfroot x.vertexId (d + c)) :
    ∃ u ∈ s.tree, u.vertexId = i ∧ ∃ h ∈ G.hops u, h.2 = x.lsa ∧
      u.distanceFromRoot + hopCost h = x.distanceFromRoot := by
  obtain ⟨u, hu, rfl⟩ := (hT.reachable i).mpr ⟨d, hi.1⟩
  obtain ⟨h, hh, hid, rfl⟩ := edge_hop hG.symmetric (hE.tree_stored u hu) he
  refine ⟨u, hu, rfl, h, hh, ?_, ?_⟩
  · exact Lsdb.id_injective (hop_stored hh) (hE.tree_stored x hx) hid
  · rw [(hE.dist hu).unique hi]
    exact hd.unique (hE.dist hx)

theorem hop_of_rootLink (hG : G.Admissible) (hE : ExitInv G s v done []) (hx : x ∈ s.tree)
    {l : GlobalRoutingLinkRecord} (hl : G.RootLink l) (hid : l.linkId = x.vertexId) :
    ∃ u ∈ s.tree, ∃ h ∈ G.hops u, h.2 = x.lsa ∧ h.1 = some l ∧
      u.distanceFromRoot + hopCost h = x.distanceFromRoot ∧ u.vertexId = G.spfroot := by
  obtain ⟨u, hu, huid, hud⟩ := hE.frontier.start
  obtain ⟨⟨w, hw, hwid, hmem⟩, hns, hdist⟩ := hl
  obtain ⟨lsa, hlsadb, hlsaid, hr⟩ := hG.root_router
  obtain rfl : u.lsa = w := Lsdb.id_injective (hE.tree_stored u hu) hw (huid.trans hwid.symm)
  obtain rfl : u.lsa = lsa :=
    Lsdb.id_injective (hE.tree_stored u hu) hlsadb (huid.trans hlsaid.symm)
  refine ⟨u, hu, (some l, x.lsa), (mem_hops_router hr).mpr ⟨l, hmem, hns, rfl, ?_⟩, rfl, rfl,
    ?_, huid⟩
  · exact Lsdb.getLSA_eq_some.mpr ⟨hE.tree_stored x hx, hid.symm⟩
  · rw [hid] at hdist
    rw [hud, Nat.zero_add]
    exact hdist.unique (hE.dist hx)

def popOrder (x : SPFVertex) : ℕ :=
  2 * x.distanceFromRoot + if x.vertexType = .routerLSA then 1 else 0

theorem Behind.popOrder_lt (hE : ExitInv G s v done []) (hu : u ∈ s.tree) (hx : x ∈ s.tree)
    (hb : G.Behind u.lsa x.lsa) :
    u.distanceFromRoot = x.distanceFromRoot ∧ popOrder u < popOrder x := by
  obtain ⟨d, hud, hxd⟩ := hb.equal
  have heq : u.distanceFromRoot = x.distanceFromRoot :=
    ((hE.dist hu).unique hud).trans (hxd.unique (hE.dist hx))
  refine ⟨heq, ?_⟩
  have hn : u.vertexType = .networkLSA := hb.network.2
  have hr : x.vertexType = .routerLSA := hb.router.2
  simp [popOrder, hn, hr, heq]

theorem exits_sound (hG : G.Admissible) (hA : G.Addresses remoteAddr)
    (hU : G.Unambiguous remoteAddr) (hE : ExitInv G s v done []) (hu : u ∈ s.tree)
    (hx : x ∈ s.tree) (hh : h ∈ G.hops u) (hlsa : h.2 = x.lsa)
    (hsum : u.distanceFromRoot + hopCost h = x.distanceFromRoot)
    (ih : popOrder u < popOrder x → u.vertexId ≠ G.spfroot →
      ∀ e, e ∈ u.ecmpRootExits ↔ G.RootExit remoteAddr u.vertexId e)
    (he : e ∈ G.contribution u h) : G.RootExit remoteAddr x.vertexId e := by
  have hustored := hE.tree_stored u hu
  have hxstored := hE.tree_stored x hx
  have hedge := hop_edge hG.symmetric hustored hh
  have hxd := hE.dist hx
  have hud := hE.dist hu
  rw [← hsum] at hxd
  rw [hlsa] at hedge
  cases contributed hG hE hu hx hh hlsa hsum with
  | link hroot hl hlid h₁ hxr hlt hr hc =>
    rw [hc] at he
    rw [List.mem_singleton.mp he, ← hlid,
      hU.pointToPoint _ hl hlt x.lsa hxstored hlid.symm _ hr]
    exact .inl (.pointToPoint hl hlt)
  | @network l hroot hl hlid h₁ hxn hlt hc =>
    rw [hc] at he
    rw [List.mem_singleton.mp he, hU.network _ hl hlt x.lsa hxstored hlid.symm]
    exact .inr ⟨_, ⟨l, hl, hlt, hlid, rfl⟩, rfl⟩
  | @attached r e' others hroot hun hb hr hfirst hexits hc =>
    obtain ⟨heq, hlt⟩ := hb.popOrder_lt hE hu hx
    obtain ⟨i, hi⟩ := directlyAttached_of_rootFirst hG hustored hun hfirst
    have he' : e' = (0, i) := by
      refine hU.oneExit _ _ hb _ _ ((ih hlt hroot e').mp ?_) (.inr ⟨i, hi, rfl⟩)
      rw [hexits]
      exact List.mem_cons_self
    obtain ⟨hrmem, hrid⟩ := firstBack_mem hr
    have hns : r.linkType ≠ .stubNetwork :=
      fun hs => hA.stub _ hxstored r hrmem hs _ hustored hrid
    have hrt := (link_type hG.symmetric hxstored hrmem hns hustored hrid.symm).2.mp hun
    rw [hc, he'] at he
    rw [List.mem_singleton.mp he]
    exact .inl (.behind hi hxstored hb.router.2 hrmem hrt hrid hud (heq ▸ hE.dist hx))
  | behind hroot hun hb hfirst hc =>
    obtain ⟨-, hlt⟩ := hb.popOrder_lt hE hu hx
    rw [hc] at he
    rcases (ih hlt hroot e).mp (List.mem_of_mem_take he) with hnext | ⟨i, hi, -⟩
    · exact .inl (hnext.later hud hedge hxd)
    · exact (hfirst (rootFirst_of_one hG hA hustored (hU.oneExit _ _ hb) hi)).elim
  | router hroot hur hlt hc =>
    rw [hc] at he
    have hexit := (ih (by simp only [popOrder]; split_ifs <;> omega) hroot e).mp he
    exact .inl ((hexit.nextHop hG hustored rfl hur).later hud hedge hxd)

theorem exits_complete (hG : G.Admissible) (hA : G.Addresses remoteAddr)
    (hU : G.Unambiguous remoteAddr) (hE : ExitInv G s v done [])
    (hT : G.ShortestPathTree s.tree) (hx : x ∈ s.tree)
    (ih : ∀ u ∈ s.tree, popOrder u < popOrder x → u.vertexId ≠ G.spfroot →
      ∀ e, e ∈ u.ecmpRootExits ↔ G.RootExit remoteAddr u.vertexId e)
    (hexit : G.RootExit remoteAddr x.vertexId e) :
    ∃ u ∈ s.tree, ∃ h ∈ G.hops u, h.2 = x.lsa ∧
      u.distanceFromRoot + hopCost h = x.distanceFromRoot ∧ e ∈ G.contribution u h := by
  have hxstored := hE.tree_stored x hx
  rcases hexit with hnext | ⟨i, ⟨l, hl, hlt, hid, rfl⟩, rfl⟩
  · generalize hxid : x.vertexId = j at hnext
    cases hnext with
    | @pointToPoint l hl hlt =>
      obtain ⟨u, hu, h, hh, hlsa, h₁, hsum, hroot⟩ := hop_of_rootLink hG hE hx hl hxid.symm
      refine ⟨u, hu, h, hh, hlsa, hsum, ?_⟩
      cases contributed hG hE hu hx hh hlsa hsum with
      | link _ hl' hlid' h₁' _ hlt' hr hc =>
        obtain rfl : l = _ := Option.some.inj (h₁.symm.trans h₁')
        rw [hc, hU.pointToPoint _ hl hlt x.lsa hxstored hxid _ hr]
        exact List.mem_singleton_self _
      | network _ _ _ h₁' _ hlt' =>
        obtain rfl : l = _ := Option.some.inj (h₁.symm.trans h₁')
        rw [hlt] at hlt'
        cases hlt'
      | attached hne => exact (hne hroot).elim
      | behind hne => exact (hne hroot).elim
      | router hne => exact (hne hroot).elim
    | @behind n i w r d hi hw hwr hr hrt hrid hdn hdw =>
      obtain rfl : x.lsa = w := Lsdb.id_injective hxstored hw hxid
      have hnet : ∃ nlsa ∈ G.lsdb.list, nlsa.linkStateId = n ∧ nlsa.lsType = .networkLSA := by
        obtain ⟨t, ht, htid, -, htn⟩ :=
          link_target hG.symmetric hxstored hr (by simp [hrt])
        exact ⟨t, ht, htid.trans hrid, htn.mpr hrt⟩
      obtain ⟨nlsa, hn, rfl, hnt⟩ := hnet
      have hedge : G.lsdb.Edge nlsa.linkStateId x.vertexId 0 :=
        .attached hn hnt hxstored hwr hr hrt hrid
      obtain ⟨u, hu, huid, h, hh, hlsa, hsum⟩ := hop_before hG hE hT hx hdn hedge hdw
      obtain rfl : u.lsa = nlsa := Lsdb.id_injective (hE.tree_stored u hu) hn huid
      refine ⟨u, hu, h, hh, hlsa, hsum, ?_⟩
      have hfirst : G.Behind u.lsa x.lsa → G.RootFirst u.vertexId :=
        fun hb => rootFirst_of_one hG hA hn (hU.oneExit _ _ hb) hi
      cases contributed hG hE hu hx hh hlsa hsum with
      | link hroot =>
        obtain ⟨c, hpos, -, hc⟩ := hi.edge hG
        have := hc.2 0 (by rw [← SPFVertex.vertexId, hroot]; exact .nil)
        omega
      | network hroot =>
        obtain ⟨c, hpos, -, hc⟩ := hi.edge hG
        have := hc.2 0 (by rw [← SPFVertex.vertexId, hroot]; exact .nil)
        omega
      | @attached r' e' others hroot hun hb hr' _ hexits hc =>
        obtain ⟨-, hlt⟩ := hb.popOrder_lt hE hu hx
        have he' : e' = (0, i) := by
          refine hU.oneExit _ _ hb _ _ ((ih u hu hlt hroot e').mp ?_) (.inr ⟨i, hi, rfl⟩)
          rw [hexits]
          exact List.mem_cons_self
        -- the only link back is the one of the path
        obtain ⟨r₀, hr₀⟩ := List.length_eq_one_iff.mp (hU.oneLink _ _ hb i hi)
        have hmem : r ∈ x.lsa.linkRecords.filter fun r => r.linkId = u.lsa.linkStateId :=
          List.mem_filter.mpr ⟨hr, by simpa using hrid⟩
        have hmem' := List.mem_of_getElem? hr'
        rw [SPFVertex.vertexId, hr₀] at hmem'
        rw [hr₀] at hmem
        rw [hc, he', List.mem_singleton.mp hmem, List.mem_singleton.mp hmem']
        exact List.mem_singleton_self _
      | behind hroot hun hb hnot => exact (hnot (hfirst hb)).elim
      | router hroot hur =>
        rw [SPFVertex.vertexType, hnt] at hur
        cases hur
    | @later j w e d c hnext hjd hedge hd =>
      subst hxid
      obtain ⟨u, hu, rfl, h, hh, hlsa, hsum⟩ := hop_before hG hE hT hx hjd hedge hd
      have hroot := hnext.ne_root hG hA
      refine ⟨u, hu, h, hh, hlsa, hsum, ?_⟩
      cases contributed hG hE hu hx hh hlsa hsum with
      | link hr => exact (hroot hr).elim
      | network hr => exact (hroot hr).elim
      | attached _ hun hb _ hfirst =>
        -- the network would have a second exit
        obtain ⟨i, hi⟩ :=
          directlyAttached_of_rootFirst hG (hE.tree_stored u hu) hun hfirst
        have heq := hU.oneExit _ _ hb _ _ (.inl hnext) (.inr ⟨i, hi, rfl⟩)
        exact (hnext.nonzero hG hA (by rw [heq])).elim
      | behind _ _ hb _ hc =>
        obtain ⟨-, hlt⟩ := hb.popOrder_lt hE hu hx
        have he := (ih u hu hlt hroot e).mpr (.inl hnext)
        rw [hc]
        cases hexits : u.ecmpRootExits with
        | nil => simp [hexits] at he
        | cons e' others =>
          have he' := (ih u hu hlt hroot e').mp (by rw [hexits]; exact List.mem_cons_self)
          rw [hU.oneExit _ _ hb _ _ (.inl hnext) he']
          exact List.mem_singleton_self _
      | router _ _ hlt hc =>
        rw [hc]
        exact (ih u hu (by simp only [popOrder]; split_ifs <;> omega) hroot e).mpr (.inl hnext)
  · obtain ⟨u, hu, h, hh, hlsa, h₁, hsum, hroot⟩ := hop_of_rootLink hG hE hx hl hid
    refine ⟨u, hu, h, hh, hlsa, hsum, ?_⟩
    cases contributed hG hE hu hx hh hlsa hsum with
    | link _ _ _ h₁' _ hlt' =>
      obtain rfl : l = _ := Option.some.inj (h₁.symm.trans h₁')
      rw [hlt] at hlt'
      cases hlt'
    | network _ _ _ _ _ _ hc =>
      rw [hc, hU.network l hl hlt x.lsa hxstored hid.symm]
      exact List.mem_singleton_self _
    | attached hne => exact (hne hroot).elim
    | behind hne => exact (hne hroot).elim
    | router hne => exact (hne hroot).elim

/-- By induction on the order of the queue. -/
theorem exits_of_unambiguous (hG : G.Admissible) (hA : G.Addresses remoteAddr)
    (hU : G.Unambiguous remoteAddr) (hE : ExitInv G s v done [])
    (hT : G.ShortestPathTree s.tree) (hx : x ∈ s.tree) (hroot : x.vertexId ≠ G.spfroot) :
    ∀ e, e ∈ x.ecmpRootExits ↔ G.RootExit remoteAddr x.vertexId e := by
  induction hn : popOrder x using Nat.strong_induction_on generalizing x with
  | _ n ih =>
    subst hn
    intro e
    rw [(hE.tree x hx hroot).2 e]
    constructor
    · rintro ⟨u, hu, h, hh, hlsa, hsum, he⟩
      exact exits_sound hG hA hU hE hu hx hh hlsa hsum
        (fun hlt hne => ih _ hlt hu hne rfl) he
    · exact exits_complete hG hA hU hE hT hx fun u hu hlt hne => ih _ hlt hu hne rfl

theorem findsAllExits_of_unambiguous (hG : G.Admissible) (hA : G.Addresses remoteAddr)
    (hU : G.Unambiguous remoteAddr) (hE : ExitInv G s v (G.hops v) [])
    (hT : G.ShortestPathTree s.tree) : G.FindsAllExits remoteAddr s := by
  refine ⟨hE.assertions.mpr fun u hu h hh hdist => ?_, fun x hx hroot =>
    ⟨(hE.tree x hx hroot).1, exits_of_unambiguous hG hA hU hE hT hx hroot⟩⟩
  rw [explored_all rfl] at hh
  rcases hop_kind hG (hE.tree_stored u hu) hh with ⟨hr, -⟩ | ⟨hn, hwr, hcost⟩
  · exact ExitInv.failedAssertion_router hr
  · by_cases hroot : u.vertexId = G.spfroot
    · simp [failedAssertion, hroot]
    · have hedge := hop_edge hG.symmetric (hE.tree_stored u hu) hh
      rw [hcost] at hedge
      have hb : G.Behind u.lsa h.2 :=
        ⟨⟨hE.tree_stored u hu, hn⟩, ⟨hop_stored hh, hwr⟩, hedge, _, hE.dist hu, hdist⟩
      -- two exits of one vertex are equal, and the list has no duplicates
      have hle : u.ecmpRootExits.length ≤ 1 := by
        have hnd := (hE.tree u hu hroot).1
        have hexits := exits_of_unambiguous hG hA hU hE hT hu hroot
        cases hl : u.ecmpRootExits with
        | nil => simp
        | cons e others =>
          cases others with
          | nil => simp
          | cons e' others =>
            rw [hl] at hnd hexits
            have heq := hU.oneExit _ _ hb e e' ((hexits e).mp (by simp))
              ((hexits e').mp (by simp))
            simp [heq] at hnd
      simp [failedAssertion, Nat.not_lt_of_le hle]

theorem not_endless_of_unambiguous (hG : G.Admissible) (hU : G.Unambiguous remoteAddr)
    {n w : GlobalRoutingLSA} : ¬ G.Endless n w := by
  intro hend
  obtain ⟨i, hi⟩ := directlyAttached_of_rootFirst hG hend.network.1 hend.network.2 hend.first
  have hone := hU.oneLink n w ⟨hend.network, hend.router, hend.attached, hend.equal⟩ i hi
  have hmany := hend.many
  omega

/-! ### Only then -/

section Converse
variable (hG : G.Admissible) (hA : G.Addresses remoteAddr) (hE : ExitInv G s v (G.hops v) [])
  (hF : G.FindsAllExits remoteAddr s)
include hG hA hE hF

theorem not_from_before (hu : u ∈ s.tree) (hx : x ∈ s.tree) (hroot : u.vertexId ≠ G.spfroot)
    (he : e ∈ u.ecmpRootExits) {r : GlobalRoutingLinkRecord} (hr : r ∈ x.lsa.linkRecords)
    (hns : r.linkType ≠ .stubNetwork) (hdata : e.1 = r.linkData)
    (hbefore : u.distanceFromRoot < x.distanceFromRoot ∨
      u.vertexType = .networkLSA ∧ u.distanceFromRoot = x.distanceFromRoot) : False := by
  have hxstored := hE.tree_stored x hx
  have hnext : G.NextHop remoteAddr u.vertexId e := by
    rcases ((hF.2 u hu hroot).2 e).mp he with hnext | ⟨i, -, rfl⟩
    · exact hnext
    · exact (hA.nonzero _ hxstored r hr hns hdata.symm).elim
  obtain ⟨t, ht, r', hr', hns', hdata', dt, du, -, hle, htd, hud, hnet⟩ := hnext.owner hG hA
  obtain ⟨rfl, -⟩ := hA.distinct t ht _ hxstored r' hr' r hr hns' hns (hdata'.trans hdata)
  have hdt := htd.unique (hE.dist hx)
  have hdu := hud.unique (hE.dist hu)
  rcases hbefore with hlt | ⟨hn, heq⟩
  · omega
  · have := hnet _ (hE.tree_stored u hu) rfl hn
    omega

theorem from_firstBack (hx : x ∈ s.tree) (hroot : x.vertexId ≠ G.spfroot)
    (he : e ∈ x.ecmpRootExits) {r : GlobalRoutingLinkRecord} (hr : r ∈ x.lsa.linkRecords)
    (hns : r.linkType ≠ .stubNetwork) (hdata : e.1 = r.linkData) :
    ∃ r' j, firstBack x.lsa j = some r' ∧ r'.linkData = r.linkData ∧
      ∃ n ∈ G.lsdb.list, n.linkStateId = j := by
  have hxstored := hE.tree_stored x hx
  obtain ⟨u, hu, h, hh, hlsa, hsum, he⟩ := ((hE.tree x hx hroot).2 e).mp he
  have hustored := hE.tree_stored u hu
  cases contributed hG hE hu hx hh hlsa hsum with
  | link hur _ _ _ _ _ hb hc =>
    rw [hc] at he
    rw [List.mem_singleton.mp he] at hdata
    exact ⟨_, _, hb, hdata, _, hustored, hur⟩
  | network _ _ _ _ _ _ hc =>
    rw [hc] at he
    rw [List.mem_singleton.mp he] at hdata
    exact (hA.nonzero _ hxstored r hr hns hdata.symm).elim
  | attached _ _ _ hb _ _ hc =>
    rw [hc] at he
    rw [List.mem_singleton.mp he] at hdata
    exact ⟨_, _, hb, hdata, _, hustored, rfl⟩
  | behind hur hun hb _ hc =>
    rw [hc] at he
    exact (not_from_before hG hA hE hF hu hx hur (List.mem_of_mem_take he) hr hns hdata
      (.inr ⟨hun, (hb.popOrder_lt hE hu hx).1⟩)).elim
  | router hur _ hlt hc =>
    rw [hc] at he
    exact (not_from_before hG hA hE hF hu hx hur he hr hns hdata (.inl hlt)).elim

theorem firstBack_of_exit (hx : x ∈ s.tree) (hroot : x.vertexId ≠ G.spfroot)
    (he : e ∈ x.ecmpRootExits) {r : GlobalRoutingLinkRecord} (hr : r ∈ x.lsa.linkRecords)
    (hns : r.linkType ≠ .stubNetwork) (hdata : e.1 = r.linkData) :
    firstBack x.lsa r.linkId = some r := by
  have hxstored := hE.tree_stored x hx
  obtain ⟨r', j, hb, hdata', n, hn, hnid⟩ := from_firstBack hG hA hE hF hx hroot he hr hns hdata
  obtain ⟨hr', hid⟩ := firstBack_mem hb
  have hns' : r'.linkType ≠ .stubNetwork :=
    fun hs => hA.stub _ hxstored r' hr' hs n hn (hid.trans hnid.symm)
  obtain ⟨-, rfl⟩ := hA.distinct _ hxstored _ hxstored r' hr' r hr hns' hns hdata'
  rwa [hid]

theorem unambiguous_of_findsAllExits (hT : G.ShortestPathTree s.tree) :
    G.Unambiguous remoteAddr where
  pointToPoint := by
    intro l hl hlt w hw hwid r hr
    obtain ⟨v', hv', hv'id, hmem⟩ := hl.1
    obtain ⟨w', hw', hw'id, r', hr', hrt, hrid, hdata⟩ := hA.remote v' hv' hv'id l hmem hlt
    obtain rfl := Lsdb.id_injective hw hw' (hwid.trans hw'id.symm)
    obtain ⟨x, hx, hxid⟩ := (hT.reachable l.linkId).mpr ⟨_, hl.2.2.1⟩
    obtain rfl : x.lsa = w := Lsdb.id_injective (hE.tree_stored x hx) hw (hxid.trans hwid.symm)
    have hexit : G.NextHop remoteAddr x.vertexId (remoteAddr l, G.interfaceOf l) :=
      hxid ▸ .pointToPoint hl hlt
    have hroot := hexit.ne_root hG hA
    have hfirst := firstBack_of_exit hG hA hE hF hx hroot
      (((hF.2 x hx hroot).2 _).mpr (.inl hexit)) hr' (by simp [hrt]) hdata.symm
    rw [hrid, firstBack, hr] at hfirst
    rw [Option.some.inj hfirst, hdata]
  network := by
    intro l hl hlt n hn hnid
    obtain ⟨x, hx, hxid⟩ := (hT.reachable l.linkId).mpr ⟨_, hl.2.2.1⟩
    obtain rfl : x.lsa = n := Lsdb.id_injective (hE.tree_stored x hx) hn (hxid.trans hnid.symm)
    obtain ⟨v', hv', -, hmem⟩ := hl.1
    have hnt : x.vertexType = .networkLSA :=
      (link_type hG.symmetric hv' hmem hl.2.1 hn hnid).2.mpr hlt
    have hroot : x.vertexId ≠ G.spfroot := by
      intro hroot
      obtain ⟨lsa, hlsa, hid, hr⟩ := hG.root_router
      rw [SPFVertex.vertexType, Lsdb.id_injective hn hlsa (hroot.trans hid.symm), hr] at hnt
      cases hnt
    have he := ((hF.2 x hx hroot).2 (0, G.interfaceOf l)).mpr
      (.inr ⟨_, ⟨l, hl, hlt, hxid.symm, rfl⟩, rfl⟩)
    obtain ⟨u, hu, h, hh, hlsa, hsum, he⟩ := ((hE.tree x hx hroot).2 _).mp he
    cases contributed hG hE hu hx hh hlsa hsum with
    | link _ _ _ _ hxr =>
      rw [hnt] at hxr
      cases hxr
    | network _ _ _ _ _ _ hc =>
      rw [hc] at he
      exact (congrArg Prod.snd (List.mem_singleton.mp he)).symm
    | attached _ _ hb =>
      have hxr := hb.router.2
      rw [← SPFVertex.vertexType, hnt] at hxr
      cases hxr
    | behind _ _ hb =>
      have hxr := hb.router.2
      rw [← SPFVertex.vertexType, hnt] at hxr
      cases hxr
    | router hur hut _ hc =>
      rw [hc] at he
      have hnext := (((hF.2 u hu hur).2 _).mp he).nextHop hG (hE.tree_stored u hu) rfl hut
      exact (hnext.nonzero hG hA rfl).elim
  oneExit := by
    intro n w hb e e' he he'
    obtain ⟨d, hnd, hwd⟩ := hb.equal
    obtain ⟨u, hu, huid⟩ := (hT.reachable n.linkStateId).mpr ⟨d, hnd.1⟩
    obtain rfl : u.lsa = n := Lsdb.id_injective (hE.tree_stored u hu) hb.network.1 huid
    obtain ⟨h, hh, hid, hcost⟩ := edge_hop hG.symmetric (hE.tree_stored u hu) hb.attached
    have hroot : u.vertexId ≠ G.spfroot := by
      intro hroot
      obtain ⟨lsa, hlsa, hid, hr⟩ := hG.root_router
      have hn := hb.network.2
      rw [Lsdb.id_injective (hE.tree_stored u hu) hlsa (hroot.trans hid.symm), hr] at hn
      cases hn
    have hzero := hE.assertions.mp hF.1 u hu h ((explored_all rfl).mpr hh)
      (hid ▸ (hnd.unique (hE.dist hu)) ▸ hwd)
    have hle : u.ecmpRootExits.length ≤ 1 := by
      by_contra hlong
      simp [failedAssertion, hroot, show u.vertexType = .networkLSA from hb.network.2,
        Nat.lt_of_not_le hlong] at hzero
    have hm := ((hF.2 u hu hroot).2 e).mpr he
    have hm' := ((hF.2 u hu hroot).2 e').mpr he'
    cases hl : u.ecmpRootExits with
    | nil => simp [hl] at hm
    | cons a others =>
      rw [hl] at hle hm hm'
      obtain rfl : others = [] := List.length_eq_zero_iff.mp (by simpa using hle)
      rw [List.mem_singleton.mp hm, List.mem_singleton.mp hm']
  oneLink := by
    intro n w hb i hi
    obtain ⟨d, hnd, hwd⟩ := hb.equal
    obtain ⟨x, hx, hxid⟩ := (hT.reachable w.linkStateId).mpr ⟨d, hwd.1⟩
    obtain rfl : x.lsa = w := Lsdb.id_injective (hE.tree_stored x hx) hb.router.1 hxid
    obtain ⟨-, w', hw', hw'id, -, r, hr, hrt, hrid⟩ :=
      edge_network hb.network.1 hb.network.2 hb.attached
    obtain rfl := Lsdb.id_injective hw' hb.router.1 hw'id
    -- every record back to the network is the first one
    have hall : ∀ r ∈ x.lsa.linkRecords.filter (fun r => r.linkId = n.linkStateId),
        firstBack x.lsa n.linkStateId = some r := by
      intro r hmem
      obtain ⟨hr, hrid⟩ := List.mem_filter.mp hmem
      have hrid : r.linkId = n.linkStateId := by simpa using hrid
      have hns : r.linkType ≠ .stubNetwork :=
        fun hs => hA.stub _ hw' r hr hs n hb.network.1 hrid
      have hrt := (link_type hG.symmetric hw' hr hns hb.network.1 hrid.symm).2.mp hb.network.2
      have hexit : G.NextHop remoteAddr x.vertexId (r.linkData, i) :=
        .behind hi hw' hb.router.2 hr hrt hrid hnd hwd
      have hroot := hexit.ne_root hG hA
      rw [← hrid]
      exact firstBack_of_exit hG hA hE hF hx hroot
        (((hF.2 x hx hroot).2 _).mpr (.inl hexit)) hr hns rfl
    have hnd := (hA.nodup _ hw').filter fun r => decide (r.linkId = n.linkStateId)
    have hmem : r ∈ x.lsa.linkRecords.filter fun r => r.linkId = n.linkStateId :=
      List.mem_filter.mpr ⟨hr, by simpa using hrid⟩
    have hperm : (x.lsa.linkRecords.filter fun r => r.linkId = n.linkStateId).Perm [r] := by
      refine (List.perm_ext_iff_of_nodup hnd (List.nodup_singleton r)).mpr fun a => ?_
      rw [List.mem_singleton]
      constructor
      · intro ha
        exact Option.some.inj ((hall a ha).symm.trans (hall r hmem))
      · rintro rfl
        exact hmem
    exact hperm.length_eq

end Converse
end Contributions

/-- The calculation finds the first hops of all shortest paths, without a failed assertion, if
and only if nothing that it overlooks counts. -/
theorem spf_finds_all_exits (G : GlobalRouteManager)
    (remoteAddr : GlobalRoutingLinkRecord → Ipv4Address) (hG : G.Admissible)
    (hA : G.Addresses remoteAddr) (hstub : G.shortCircuits = .ok false) :
    (∃ enough, ∀ fuel, enough ≤ fuel →
      ∃ s, G.spfCalculate fuel = .ok s ∧ G.FindsAllExits remoteAddr s) ↔
        G.Unambiguous remoteAddr := by
  constructor
  · rintro ⟨enough, hruns⟩
    obtain ⟨s, hok, hF⟩ := hruns enough (Nat.le_refl enough)
    obtain ⟨v, hE⟩ := spfCalculate_exits hG hstub hok
    exact unambiguous_of_findsAllExits hG hA hE hF (spfCalculate_tree hG hstub hok)
  · intro hU
    refine ⟨G.lsdb.list.length + 2, fun fuel hfuel => ?_⟩
    obtain ⟨s, hok⟩ := spfCalculate_total hG hstub
      (fun n w => not_endless_of_unambiguous hG hU) hfuel
    obtain ⟨v, hE⟩ := spfCalculate_exits hG hstub hok
    exact ⟨s, hok, findsAllExits_of_unambiguous hG hA hU hE (spfCalculate_tree hG hstub hok)⟩

/-! ### One network, and two parallel links -/

section Examples

theorem sharedNetwork_unambiguous : (sharedNetwork []).Unambiguous fun _ => 0 := by
  obtain ⟨hnet, hrouter⟩ := sharedNetwork_dist sharedNetwork_symmetric
  have hG := sharedNetwork_admissible sharedNetwork_symmetric
  have hlist : ∀ n ∈ (sharedNetwork []).lsdb.list, n.lsType = .networkLSA →
      n.linkStateId = 100 := by decide
  have hfew : ∀ w ∈ (sharedNetwork []).lsdb.list, w.linkRecords.length ≤ 1 := by decide
  have hnone : ∀ e, ¬ (sharedNetwork []).NextHop (fun _ => 0) 100 e := by
    intro e hnext
    generalize hid : (100 : Ipv4Address) = x at hnext
    cases hnext with
    | pointToPoint hl ht =>
      obtain ⟨⟨v, hv, -, hmem⟩, -, -⟩ := hl
      have hno : ∀ v ∈ (sharedNetwork []).lsdb.list, ∀ l ∈ v.linkRecords,
          l.linkType ≠ .pointToPoint := by decide
      exact hno v hv _ hmem ht
    | behind _ hw hwr =>
      have hno : ∀ w ∈ (sharedNetwork []).lsdb.list, w.lsType = .routerLSA →
          w.linkStateId ≠ 100 := by decide
      exact hno _ hw hwr hid.symm
    | @later u _ _ d c hnext hu he hd =>
      subst hid
      have hpos : 1 ≤ c := edge_into_network hG
        (n := { lsType := .networkLSA, linkStateId := 100, attachedRouters := [11, 21] })
        (by decide) rfl he
      have hsum := hnet.unique hd
      rcases (sharedNetwork_edge he).1 with rfl | rfl | rfl
      · refine NextHop.ne_root hG ⟨?_, ?_, ?_, ?_, ?_⟩ hnext rfl <;> decide
      · have := hrouter.unique hu
        omega
      · have := hnet.unique hu
        omega
  refine ⟨fun l hl ht => ?_, fun _ _ _ _ _ _ => rfl, fun n w hb e e' he he' => ?_,
    fun n w hb i hi => ?_⟩
  · obtain ⟨⟨v, hv, -, hmem⟩, -, -⟩ := hl
    have hno : ∀ v ∈ (sharedNetwork []).lsdb.list, ∀ l ∈ v.linkRecords,
        l.linkType ≠ .pointToPoint := by decide
    exact (hno v hv _ hmem ht).elim
  · rw [hlist n hb.network.1 hb.network.2] at he he'
    obtain ⟨i, ⟨-, -, -, -, rfl⟩, rfl⟩ := he.resolve_left (hnone e)
    obtain ⟨i', ⟨-, -, -, -, rfl⟩, rfl⟩ := he'.resolve_left (hnone e')
    rfl
  · obtain ⟨-, w', hw, hwid, -, r, hr, -, hrid⟩ :=
      edge_network hb.network.1 hb.network.2 hb.attached
    obtain rfl := Lsdb.id_injective hw hb.router.1 hwid
    have hpos : 0 < (w'.linkRecords.filter fun r => r.linkId = n.linkStateId).length :=
      List.length_pos_of_mem (List.mem_filter.mpr ⟨hr, by simpa using hrid⟩)
    have hle := List.length_filter_le (fun r => r.linkId = n.linkStateId) w'.linkRecords
    have := hfew w' hw
    omega

theorem spf_finds_all_exits_shared : ∃ enough, ∀ fuel, enough ≤ fuel →
    ∃ s, (sharedNetwork []).spfCalculate fuel = .ok s ∧
      (sharedNetwork []).FindsAllExits (fun _ => 0) s :=
  (spf_finds_all_exits (sharedNetwork []) (fun _ => 0)
    (sharedNetwork_admissible sharedNetwork_symmetric)
    ⟨by decide, by decide, by decide, by decide, by decide⟩ (by decide)).mpr
    sharedNetwork_unambiguous

def parallelLinks : GlobalRouteManager where
  lsdb := {
    list := [
      { lsType := .routerLSA, linkStateId := 1,
        linkRecords := [⟨2, 11, .pointToPoint, 1⟩, ⟨2, 12, .pointToPoint, 1⟩] },
      { lsType := .routerLSA, linkStateId := 2,
        linkRecords := [⟨1, 21, .pointToPoint, 1⟩, ⟨1, 22, .pointToPoint, 1⟩] }]
    sorted := by decide }
  spfroot := 1
  nNodes := 2
  findOutgoingInterfaceId := fun addr _ => if addr = 11 then 1 else 2
  vertexAddr := id

theorem parallelLinks_edge {u v c : ℕ} (he : parallelLinks.lsdb.Edge u v c) :
    (u = 1 ∨ u = 2) ∧ c = 1 := by
  have hlinks : ∀ v ∈ parallelLinks.lsdb.list, v.lsType = .routerLSA ∧
      (v.linkStateId = 1 ∨ v.linkStateId = 2) ∧ ∀ l ∈ v.linkRecords, l.metric = 1 := by decide
  cases he with
  | link hv _ hl _ => exact ⟨(hlinks _ hv).2.1, (hlinks _ hv).2.2 _ hl⟩
  | attached hv hn =>
    rw [(hlinks _ hv).1] at hn
    cases hn

theorem parallelLinks_dist : IsDist parallelLinks.lsdb.Edge 1 2 1 := by
  have he : parallelLinks.lsdb.Edge 1 2 1 :=
    .link (v := { lsType := .routerLSA, linkStateId := 1,
                  linkRecords := [⟨2, 11, .pointToPoint, 1⟩, ⟨2, 12, .pointToPoint, 1⟩] })
      (l := ⟨2, 11, .pointToPoint, 1⟩) (by decide) rfl (by decide) (by decide)
  refine ⟨Walk.nil.snoc he, fun l hl => ?_⟩
  generalize hi : (2 : Ipv4Address) = i at hl
  cases hl with
  | nil => cases hi
  | snoc _ he => exact (parallelLinks_edge he).2 ▸ Nat.le_add_left _ _

theorem parallelLinks_admissible : parallelLinks.Admissible where
  symmetric := ⟨by decide, by decide, by decide⟩
  metric_pos := by decide
  sums := by
    intro u v d c hu he
    obtain ⟨hcases, rfl⟩ := parallelLinks_edge he
    have hd : d ≤ 1 := by
      rcases hcases with rfl | rfl
      · exact (hu.2 0 .nil).trans (Nat.zero_le 1)
      · exact hu.2 1 parallelLinks_dist.1
    omega
  root_router := ⟨_, List.mem_cons_self, rfl, rfl⟩
  vertexAddr_injective := fun _ _ h => h

theorem parallel_links_one_next_hop : parallelLinks.Admissible ∧
    parallelLinks.Addresses (fun l => l.linkData + 10) ∧
    parallelLinks.shortCircuits = .ok false ∧
      ¬ ∃ enough, ∀ fuel, enough ≤ fuel → ∃ s, parallelLinks.spfCalculate fuel = .ok s ∧
        parallelLinks.FindsAllExits (fun l => l.linkData + 10) s := by
  have hA : parallelLinks.Addresses fun l => l.linkData + 10 :=
    ⟨by decide, by decide, by decide, by decide, by decide⟩
  refine ⟨parallelLinks_admissible, hA, by decide, fun ⟨enough, hruns⟩ => ?_⟩
  obtain ⟨s, hok, hF⟩ := hruns enough (Nat.le_refl enough)
  obtain ⟨v, hE⟩ := spfCalculate_exits parallelLinks_admissible (by decide) hok
  have hU := unambiguous_of_findsAllExits parallelLinks_admissible hA hE hF
    (spfCalculate_tree parallelLinks_admissible (by decide) hok)
  have hdata := hU.pointToPoint ⟨2, 12, .pointToPoint, 1⟩
    ⟨⟨_, List.mem_cons_self, rfl, by decide⟩, by decide, parallelLinks_dist⟩ rfl
    { lsType := .routerLSA, linkStateId := 2,
      linkRecords := [⟨1, 21, .pointToPoint, 1⟩, ⟨1, 22, .pointToPoint, 1⟩] }
    (by decide) rfl ⟨1, 21, .pointToPoint, 1⟩ rfl
  exact absurd hdata (by decide)

end Examples
end GlobalRouteManager
end NetGymSim.Internet

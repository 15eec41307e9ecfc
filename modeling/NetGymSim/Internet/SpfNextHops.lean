import NetGymSim.Internet.SpfExits

/-!
# The first hops of all shortest paths

What the exits of a vertex should be, from the links of the root along the shortest paths. A
next hop is an address of a router that is no farther than the vertex, and every vertex that
is reached has a first hop.
-/

namespace NetGymSim.Internet
open NetGymSim.Lib

namespace GlobalRouteManager
variable (G : GlobalRouteManager) (remoteAddr : GlobalRoutingLinkRecord → Ipv4Address)

def RootLink (l : GlobalRoutingLinkRecord) : Prop :=
  (∃ v ∈ G.lsdb.list, v.linkStateId = G.spfroot ∧ l ∈ v.linkRecords) ∧
    l.linkType ≠ .stubNetwork ∧ IsDist G.lsdb.Edge G.spfroot l.linkId l.metric

def interfaceOf (l : GlobalRoutingLinkRecord) : ℤ :=
  G.findOutgoingInterfaceId l.linkData 4294967295

def DirectlyAttached (n : Ipv4Address) (i : ℤ) : Prop :=
  ∃ l, G.RootLink l ∧ l.linkType = .transitNetwork ∧ l.linkId = n ∧ G.interfaceOf l = i

/-- First hops of shortest paths that go over another router, which is the next hop;
`remoteAddr` is the address at the other end of a point-to-point link. -/
inductive NextHop : Ipv4Address → NodeExit → Prop
  | pointToPoint {l : GlobalRoutingLinkRecord} : G.RootLink l → l.linkType = .pointToPoint →
      NextHop l.linkId (remoteAddr l, G.interfaceOf l)
  | behind {n : Ipv4Address} {i : ℤ} {w : GlobalRoutingLSA} {r : GlobalRoutingLinkRecord}
      {d : ℕ} : G.DirectlyAttached n i → w ∈ G.lsdb.list → w.lsType = .routerLSA →
      r ∈ w.linkRecords → r.linkType = .transitNetwork → r.linkId = n →
      IsDist G.lsdb.Edge G.spfroot n d → IsDist G.lsdb.Edge G.spfroot w.linkStateId d →
      NextHop w.linkStateId (r.linkData, i)
  | later {u w : Ipv4Address} {nodeExit : NodeExit} {d c : ℕ} : NextHop u nodeExit →
      IsDist G.lsdb.Edge G.spfroot u d → G.lsdb.Edge u w c →
      IsDist G.lsdb.Edge G.spfroot w (d + c) → NextHop w nodeExit

def RootExit (x : Ipv4Address) (nodeExit : NodeExit) : Prop :=
  G.NextHop remoteAddr x nodeExit ∨ ∃ i, G.DirectlyAttached x i ∧ nodeExit = (0, i)

structure Behind (n w : GlobalRoutingLSA) : Prop where
  network : n ∈ G.lsdb.list ∧ n.lsType = .networkLSA
  router : w ∈ G.lsdb.list ∧ w.lsType = .routerLSA
  attached : G.lsdb.Edge n.linkStateId w.linkStateId 0
  equal : ∃ d, IsDist G.lsdb.Edge G.spfroot n.linkStateId d ∧
    IsDist G.lsdb.Edge G.spfroot w.linkStateId d

/-- The addresses of the links identify the interfaces of the routers, and a stub link does
not have the id of a vertex. -/
structure Addresses : Prop where
  remote : ∀ v ∈ G.lsdb.list, v.linkStateId = G.spfroot → ∀ l ∈ v.linkRecords,
    l.linkType = .pointToPoint → ∃ w ∈ G.lsdb.list, w.linkStateId = l.linkId ∧
      ∃ r ∈ w.linkRecords, r.linkType = .pointToPoint ∧ r.linkId = G.spfroot ∧
        r.linkData = remoteAddr l
  distinct : ∀ v ∈ G.lsdb.list, ∀ w ∈ G.lsdb.list, ∀ r ∈ v.linkRecords,
    ∀ r' ∈ w.linkRecords, r.linkType ≠ .stubNetwork → r'.linkType ≠ .stubNetwork →
      r.linkData = r'.linkData → v = w ∧ r = r'
  nodup : ∀ v ∈ G.lsdb.list, v.linkRecords.Nodup
  nonzero : ∀ v ∈ G.lsdb.list, ∀ r ∈ v.linkRecords, r.linkType ≠ .stubNetwork → r.linkData ≠ 0
  stub : ∀ v ∈ G.lsdb.list, ∀ r ∈ v.linkRecords, r.linkType = .stubNetwork →
    ∀ w ∈ G.lsdb.list, r.linkId ≠ w.linkStateId

section Hops
variable {G remoteAddr} {u x n : Ipv4Address} {v w lsa : GlobalRoutingLSA} {i : ℤ}
  {e : NodeExit} {l : GlobalRoutingLinkRecord} {d c : ℕ}

theorem edge_router (hv : v ∈ G.lsdb.list) (hr : v.lsType = .routerLSA)
    (he : G.lsdb.Edge v.linkStateId x c) :
    ∃ l ∈ v.linkRecords, l.linkType ≠ .stubNetwork ∧ l.linkId = x ∧ l.metric = c := by
  generalize hid : v.linkStateId = j at he
  cases he with
  | @link v' l hv' _ hl ht =>
    obtain rfl := Lsdb.id_injective hv hv' hid
    exact ⟨l, hl, ht, rfl, rfl⟩
  | attached hn ht =>
    rw [Lsdb.id_injective hv hn hid, ht] at hr
    cases hr

theorem edge_network (hv : v ∈ G.lsdb.list) (hn : v.lsType = .networkLSA)
    (he : G.lsdb.Edge v.linkStateId x c) : c = 0 ∧ ∃ w ∈ G.lsdb.list, w.linkStateId = x ∧
      w.lsType = .routerLSA ∧ ∃ r ∈ w.linkRecords, r.linkType = .transitNetwork ∧
        r.linkId = v.linkStateId := by
  generalize hid : v.linkStateId = j at he
  cases he with
  | link hv' hr =>
    rw [Lsdb.id_injective hv hv' hid, hr] at hn
    cases hn
  | @attached _ w r _ _ hw hwr hr ht hrid =>
    exact ⟨rfl, w, hw, rfl, hwr, r, hr, ht, hrid⟩

theorem edge_source (he : G.lsdb.Edge u x c) : ∃ v ∈ G.lsdb.list, v.linkStateId = u := by
  cases he with
  | link hv => exact ⟨_, hv, rfl⟩
  | attached hv => exact ⟨_, hv, rfl⟩

theorem link_target (hsym : G.lsdb.Symmetric) (hv : v ∈ G.lsdb.list) (hl : l ∈ v.linkRecords)
    (ht : l.linkType ≠ .stubNetwork) : ∃ w ∈ G.lsdb.list, w.linkStateId = l.linkId ∧
      (w.lsType = .routerLSA ↔ l.linkType = .pointToPoint) ∧
      (w.lsType = .networkLSA ↔ l.linkType = .transitNetwork) := by
  cases htype : l.linkType with
  | stubNetwork => exact (ht htype).elim
  | pointToPoint =>
    obtain ⟨w, hw, hid, hr, -⟩ := hsym.pointToPoint v hv l hl htype
    exact ⟨w, hw, hid, by simp [hr], by simp [hr]⟩
  | transitNetwork =>
    obtain ⟨-, -, w, hw, hid, hn, -⟩ := hsym.transit v hv l hl htype
    exact ⟨w, hw, hid, by simp [hn], by simp [hn]⟩

theorem link_type (hsym : G.lsdb.Symmetric) (hv : v ∈ G.lsdb.list) (hl : l ∈ v.linkRecords)
    (ht : l.linkType ≠ .stubNetwork) (hw : w ∈ G.lsdb.list) (hid : w.linkStateId = l.linkId) :
    (w.lsType = .routerLSA ↔ l.linkType = .pointToPoint) ∧
      (w.lsType = .networkLSA ↔ l.linkType = .transitNetwork) := by
  obtain ⟨w', hw', hid', htypes⟩ := link_target hsym hv hl ht
  rw [Lsdb.id_injective hw hw' (hid.trans hid'.symm)]
  exact htypes

theorem DirectlyAttached.network (hsym : G.lsdb.Symmetric) (h : G.DirectlyAttached n i)
    (hv : v ∈ G.lsdb.list) (hid : v.linkStateId = n) : v.lsType = .networkLSA := by
  obtain ⟨l, ⟨⟨v', hv', -, hl⟩, hns, -⟩, ht, rfl, -⟩ := h
  exact (link_type hsym hv' hl hns hv hid).2.mpr ht

theorem RootLink.edge (hG : G.Admissible) (h : G.RootLink l) :
    G.lsdb.Edge G.spfroot l.linkId l.metric ∧ 1 ≤ l.metric := by
  obtain ⟨⟨v, hv, hid, hl⟩, ht, -⟩ := h
  obtain ⟨lsa, hlsa, hid', hr⟩ := hG.root_router
  obtain rfl := Lsdb.id_injective hv hlsa (hid.trans hid'.symm)
  exact ⟨hid ▸ .link hv hr hl ht, hG.metric_pos v hv l hl ht⟩

theorem DirectlyAttached.edge (hG : G.Admissible) (h : G.DirectlyAttached n i) :
    ∃ c, 1 ≤ c ∧ G.lsdb.Edge G.spfroot n c ∧ IsDist G.lsdb.Edge G.spfroot n c := by
  obtain ⟨l, hl, -, rfl, -⟩ := h
  obtain ⟨he, hpos⟩ := hl.edge hG
  exact ⟨l.metric, hpos, he, hl.2.2⟩

theorem rootLink_of_edge (hG : G.Admissible) (he : G.lsdb.Edge G.spfroot x c)
    (hd : IsDist G.lsdb.Edge G.spfroot x c) : ∃ l, G.RootLink l ∧ l.linkId = x := by
  obtain ⟨lsa, hlsa, hid, hr⟩ := hG.root_router
  rw [← hid] at he
  obtain ⟨l, hl, ht, rfl, rfl⟩ := edge_router hlsa hr he
  exact ⟨l, ⟨⟨lsa, hlsa, hid, hl⟩, ht, hd⟩, rfl⟩

end Hops

section NextHops
variable {G remoteAddr} {u x n : Ipv4Address} {v w lsa : GlobalRoutingLSA} {i : ℤ}
  {e : NodeExit} {d c : ℕ}

theorem NextHop.owner (hG : G.Admissible) (hA : G.Addresses remoteAddr)
    (h : G.NextHop remoteAddr x e) : ∃ t ∈ G.lsdb.list, ∃ r ∈ t.linkRecords,
      r.linkType ≠ .stubNetwork ∧ r.linkData = e.1 ∧ ∃ dt dx, 1 ≤ dx ∧ dt ≤ dx ∧
        IsDist G.lsdb.Edge G.spfroot t.linkStateId dt ∧ IsDist G.lsdb.Edge G.spfroot x dx ∧
        ∀ n ∈ G.lsdb.list, n.linkStateId = x → n.lsType = .networkLSA → dt < dx := by
  induction h with
  | @pointToPoint l hl ht =>
    obtain ⟨v, hv, hvid, hmem⟩ := hl.1
    obtain ⟨w, hw, hwid, r, hr, hrt, -, hdata⟩ := hA.remote v hv hvid l hmem ht
    refine ⟨w, hw, r, hr, by simp [hrt], hdata, l.metric, l.metric, (hl.edge hG).2,
      Nat.le_refl _, hwid ▸ hl.2.2, hl.2.2, fun n hn hnid hnt => ?_⟩
    have := (link_type hG.symmetric hv hmem hl.2.1 hn hnid).2.mp hnt
    rw [ht] at this
    cases this
  | @behind n i w r d hn hw hwr hr hrt hrid hdn hdw =>
    obtain ⟨c, hpos, -, hc⟩ := hn.edge hG
    refine ⟨w, hw, r, hr, by simp [hrt], rfl, d, d, ?_, Nat.le_refl _, hdw, hdw,
      fun n' hn' hnid hnt => ?_⟩
    · rwa [hdn.unique hc]
    · rw [Lsdb.id_injective hn' hw hnid, hwr] at hnt
      cases hnt
  | @later u w e d c _ hu he hw ih =>
    obtain ⟨t, ht, r, hr, hrt, hdata, dt, du, hpos, hle, htd, hud, -⟩ := ih
    obtain rfl := hud.unique hu
    refine ⟨t, ht, r, hr, hrt, hdata, dt, du + c, by omega, by omega, htd, hw,
      fun n hn hnid hnt => ?_⟩
    have : 1 ≤ c := edge_into_network hG hn hnt (hnid ▸ he)
    omega

theorem NextHop.nonzero (hG : G.Admissible) (hA : G.Addresses remoteAddr)
    (h : G.NextHop remoteAddr x e) : e.1 ≠ 0 := by
  obtain ⟨t, ht, r, hr, hrt, hdata, -⟩ := h.owner hG hA
  rw [← hdata]
  exact hA.nonzero t ht r hr hrt

theorem NextHop.ne_root (hG : G.Admissible) (hA : G.Addresses remoteAddr)
    (h : G.NextHop remoteAddr x e) : x ≠ G.spfroot := by
  rintro rfl
  obtain ⟨-, -, -, -, -, -, -, dx, hpos, -, -, hdx, -⟩ := h.owner hG hA
  have := hdx.2 0 .nil
  omega

theorem RootExit.nextHop (hG : G.Admissible) (h : G.RootExit remoteAddr x e)
    (hv : v ∈ G.lsdb.list) (hid : v.linkStateId = x) (hr : v.lsType = .routerLSA) :
    G.NextHop remoteAddr x e := by
  rcases h with h | ⟨i, hi, -⟩
  · exact h
  · rw [hi.network hG.symmetric hv hid] at hr
    cases hr

theorem exists_rootExit (hG : G.Admissible) (hd : IsDist G.lsdb.Edge G.spfroot x d)
    (hx : x ≠ G.spfroot) : ∃ e, G.RootExit remoteAddr x e := by
  obtain ⟨hw, hmin⟩ := hd
  induction hw with
  | nil => exact (hx rfl).elim
  | @snoc u w k c hwu he ih =>
    have hu : IsDist G.lsdb.Edge G.spfroot u k := IsDist.before hwu he ⟨hwu.snoc he, hmin⟩
    by_cases huroot : u = G.spfroot
    · subst huroot
      obtain rfl : k = 0 := hu.unique ⟨.nil, fun l _ => Nat.zero_le l⟩
      obtain ⟨l, hl, rfl⟩ := rootLink_of_edge hG he
        (by rw [← Nat.zero_add c]; exact ⟨hwu.snoc he, hmin⟩)
      cases htype : l.linkType with
      | stubNetwork => exact (hl.2.1 htype).elim
      | pointToPoint => exact ⟨_, .inl (.pointToPoint hl htype)⟩
      | transitNetwork => exact ⟨_, .inr ⟨_, ⟨l, hl, htype, rfl, rfl⟩, rfl⟩⟩
    · obtain ⟨e, he' | ⟨i, hi, -⟩⟩ := ih huroot hu.2
      · exact ⟨e, .inl (.later he' hu he ⟨hwu.snoc he, hmin⟩)⟩
      · obtain ⟨n, hn, rfl⟩ := edge_source he
        have hnt := hi.network hG.symmetric hn rfl
        obtain ⟨rfl, w', hw', rfl, hwr, r, hr, hrt, hrid⟩ := edge_network hn hnt he
        exact ⟨_, .inl (.behind hi hw' hwr hr hrt hrid hu ⟨hwu.snoc he, hmin⟩)⟩

theorem rootFirst_of_one (hG : G.Admissible) (hA : G.Addresses remoteAddr)
    (hv : v ∈ G.lsdb.list) (hone : ∀ e e', G.RootExit remoteAddr v.linkStateId e →
      G.RootExit remoteAddr v.linkStateId e' → e = e')
    (hi : G.DirectlyAttached v.linkStateId i) : G.RootFirst v.linkStateId := by
  obtain ⟨c, hpos, he, hc⟩ := hi.edge hG
  refine ⟨c, he, hc, fun u d c' hu he' hd => ?_⟩
  by_cases huroot : u = G.spfroot
  · rw [huroot]
  · -- an exit of the neighbour would be a second one of the network
    obtain ⟨t, ht, rfl⟩ := edge_source he'
    have htr : t.lsType = .routerLSA := by
      cases htype : t.lsType with
      | routerLSA => rfl
      | networkLSA =>
        have hzero := (edge_network ht htype he').1
        have := edge_into_network hG hv (hi.network hG.symmetric hv rfl) he'
        omega
    obtain ⟨e, hexit⟩ : ∃ e, G.RootExit remoteAddr t.linkStateId e :=
      exists_rootExit hG hu huroot
    have hnext := hexit.nextHop hG ht rfl htr
    have heq := hone _ _ (.inl (hnext.later hu he' hd)) (.inr ⟨i, hi, rfl⟩)
    exact (hnext.nonzero hG hA (by rw [heq])).elim

theorem directlyAttached_of_rootFirst (hG : G.Admissible) (hv : v ∈ G.lsdb.list)
    (hn : v.lsType = .networkLSA) (h : G.RootFirst v.linkStateId) :
    ∃ i, G.DirectlyAttached v.linkStateId i := by
  obtain ⟨c, he, hd, -⟩ := h
  obtain ⟨l, hl, hid⟩ := rootLink_of_edge hG he hd
  obtain ⟨v', hv', -, hmem⟩ := hl.1
  have ht := (link_type hG.symmetric hv' hmem hl.2.1 hv hid.symm).2.mp hn
  exact ⟨_, l, hl, ht, hid, rfl⟩

end NextHops

end GlobalRouteManager
end NetGymSim.Internet

import NetGymSim.Internet.SpfCalculate
import NetGymSim.Lib.ExceptFold

/-!
# What one hop of the calculation does

The records of a vertex as a list of hops, what a symmetric database says about a hop, and
when the next-hop calculation comes to an end: the loop over the links back to a directly
attached network asks for the third matching record each time after the first.
-/

namespace NetGymSim.Internet
open NetGymSim.Lib CandidateQueue

def linksBack (w v : SPFVertex) : List GlobalRoutingLinkRecord :=
  w.lsa.linkRecords.filter fun l => l.linkId = v.vertexId

section NextLink
variable {vertexId : Ipv4Address} {ls : List GlobalRoutingLinkRecord}

theorem nextLink_first :
    nextLink vertexId false true ls = (ls.filter fun l => l.linkId = vertexId)[0]? := by
  induction ls with
  | nil => rfl
  | cons l ls ih =>
    by_cases h : l.linkId = vertexId
    · simp [nextLink, h]
    · simp [nextLink, h, ih]

theorem nextLink_second :
    nextLink vertexId true true ls = (ls.filter fun l => l.linkId = vertexId)[1]? := by
  induction ls with
  | nil => rfl
  | cons l ls ih =>
    by_cases h : l.linkId = vertexId
    · simp [nextLink, h, nextLink_first]
    · simp [nextLink, h, ih]

theorem nextLink_third :
    nextLink vertexId true false ls = (ls.filter fun l => l.linkId = vertexId)[2]? := by
  induction ls with
  | nil => rfl
  | cons l ls ih =>
    by_cases h : l.linkId = vertexId
    · simp [nextLink, h, nextLink_second]
    · simp [nextLink, h, ih]

variable {v w : SPFVertex} {l : GlobalRoutingLinkRecord}

theorem spfGetNextLink_none : spfGetNextLink w v none = (linksBack w v)[0]? :=
  nextLink_first

theorem spfGetNextLink_some : spfGetNextLink w v (some l) = (linksBack w v)[2]? :=
  nextLink_third

end NextLink

section ExitsBehindNetwork
variable {v w w' : SPFVertex} {fuel k : ℕ} {l : GlobalRoutingLinkRecord}
  {prevLink : Option GlobalRoutingLinkRecord}

theorem exitsBehindNetwork_succ (hl : spfGetNextLink w v prevLink = some l)
    (h : exitsBehindNetwork v (fuel + 1) prevLink w = .ok (w', k)) :
    ∃ w₁ k₁, w₁.lsa = w.lsa ∧ exitsBehindNetwork v fuel (some l) w₁ = .ok (w', k₁) := by
  unfold exitsBehindNetwork at h
  rw [hl] at h
  obtain ⟨⟨nodeExit, failed⟩, -, h⟩ := bind_eq_ok.mp h
  obtain ⟨⟨w₂, more⟩, hr, h⟩ := bind_eq_ok.mp h
  cases h
  exact ⟨w.setRootExitDirection (l.linkData, nodeExit.2), more, rfl, hr⟩

theorem exitsBehindNetwork_lsa (h : exitsBehindNetwork v fuel prevLink w = .ok (w', k)) :
    w'.lsa = w.lsa := by
  induction fuel generalizing w prevLink k with
  | zero => simp [exitsBehindNetwork] at h
  | succ fuel ih =>
    cases hl : spfGetNextLink w v prevLink with
    | none =>
      unfold exitsBehindNetwork at h
      rw [hl] at h
      cases h
      rfl
    | some l =>
      obtain ⟨w₁, k₁, hw₁, hr⟩ := exitsBehindNetwork_succ hl h
      exact (ih hr).trans hw₁

theorem exitsBehindNetwork_again (h : 3 ≤ (linksBack w v).length) :
    exitsBehindNetwork v fuel (some l) w ≠ .ok (w', k) := by
  induction fuel generalizing w l k with
  | zero => simp [exitsBehindNetwork]
  | succ fuel ih =>
    intro hok
    have hthird : spfGetNextLink w v (some l) = some ((linksBack w v)[2]) := by
      rw [spfGetNextLink_some, List.getElem?_eq_getElem h]
    obtain ⟨w₁, k₁, hw₁, hr⟩ := exitsBehindNetwork_succ hthird hok
    exact ih (by rwa [linksBack, hw₁]) hr

theorem exitsBehindNetwork_endless (h : 3 ≤ (linksBack w v).length) :
    exitsBehindNetwork v fuel none w ≠ .ok (w', k) := by
  cases fuel with
  | zero => simp [exitsBehindNetwork]
  | succ fuel =>
    intro hok
    have hfirst : spfGetNextLink w v none = some ((linksBack w v)[0]) := by
      rw [spfGetNextLink_none, List.getElem?_eq_getElem (by omega)]
    obtain ⟨w₁, k₁, hw₁, hr⟩ := exitsBehindNetwork_succ hfirst hok
    exact exitsBehindNetwork_again (by rwa [linksBack, hw₁]) hr

theorem exitsBehindNetwork_ends (hlen : (linksBack w v).length < 3) (hfuel : 2 ≤ fuel)
    (hl : (linksBack w v)[0]? = some l) {nodeExit : NodeExit}
    (hexit : v.getRootExitDirection = .ok (nodeExit, k)) :
    exitsBehindNetwork v fuel none w =
      .ok (w.setRootExitDirection (l.linkData, nodeExit.2), k) := by
  obtain ⟨fuel, rfl⟩ := Nat.exists_eq_add_of_le' hfuel
  have hnone : spfGetNextLink (w.setRootExitDirection (l.linkData, nodeExit.2)) v (some l) =
      none := by
    rw [spfGetNextLink_some]
    exact List.getElem?_eq_none (by
      change (linksBack w v).length ≤ 2
      omega)
  have hagain : exitsBehindNetwork v (fuel + 1) (some l)
      (w.setRootExitDirection (l.linkData, nodeExit.2)) =
        .ok (w.setRootExitDirection (l.linkData, nodeExit.2), 0) := by
    unfold exitsBehindNetwork
    rw [hnone]
  unfold exitsBehindNetwork
  rw [spfGetNextLink_none, hl]
  simp only [hexit, hagain, bind, Except.bind, pure, Except.pure, Nat.add_zero]

theorem exitsBehindNetwork_ok (hl : (linksBack w v)[0]? = some l)
    (h : exitsBehindNetwork v fuel none w = .ok (w', k)) :
    ∃ nodeExit, v.getRootExitDirection = .ok (nodeExit, k) ∧
      w' = w.setRootExitDirection (l.linkData, nodeExit.2) := by
  have hlen : (linksBack w v).length < 3 := by
    by_contra hlen
    exact exitsBehindNetwork_endless (Nat.le_of_not_lt hlen) h
  match fuel, h with
  | 0, h => simp [exitsBehindNetwork] at h
  | 1, h =>
    obtain ⟨w₁, k₁, -, hr⟩ := exitsBehindNetwork_succ (spfGetNextLink_none.trans hl) h
    simp [exitsBehindNetwork] at hr
  | fuel + 2, h =>
    have hexit : ∃ nodeExit failed, v.getRootExitDirection = .ok (nodeExit, failed) := by
      unfold exitsBehindNetwork at h
      rw [spfGetNextLink_none, hl] at h
      obtain ⟨⟨nodeExit, failed⟩, he, -⟩ := bind_eq_ok.mp h
      exact ⟨nodeExit, failed, he⟩
    obtain ⟨nodeExit, failed, he⟩ := hexit
    rw [exitsBehindNetwork_ends hlen (Nat.le_add_left 2 fuel) hl he] at h
    cases h
    exact ⟨nodeExit, he, rfl⟩

end ExitsBehindNetwork

theorem SPFVertex.getRootExitDirection_ok {v : SPFVertex} (h : v.ecmpRootExits ≠ []) :
    ∃ nodeExit k, v.getRootExitDirection = .ok (nodeExit, k) := by
  cases he : v.ecmpRootExits with
  | nil => exact (h he).elim
  | cons nodeExit others =>
    exact ⟨nodeExit, if others = [] then 0 else 1, by simp [getRootExitDirection, he]⟩

abbrev Hop := Option GlobalRoutingLinkRecord × GlobalRoutingLSA

def hopCost (h : Hop) : ℕ := (h.1.map GlobalRoutingLinkRecord.metric).getD 0

namespace GlobalRouteManager
variable (G : GlobalRouteManager)

def hops (v : SPFVertex) : List Hop :=
  match v.vertexType with
  | .routerLSA => v.lsa.linkRecords.filterMap fun l =>
      if l.linkType = .stubNetwork then none
      else (G.lsdb.getLSA l.linkId).map fun wLsa => (some l, wLsa)
  | .networkLSA => v.lsa.attachedRouters.filterMap fun addr =>
      (G.lsdb.getLSAByLinkData addr).map fun wLsa => (none, wLsa)

/-- What is assumed of the database and of the vertices in memory: symmetric links, metrics of
at least one, distance sums that fit in 32 bits, and one address for one vertex. -/
structure Admissible : Prop where
  symmetric : G.lsdb.Symmetric
  metric_pos : ∀ v ∈ G.lsdb.list, ∀ l ∈ v.linkRecords, l.linkType ≠ .stubNetwork → 1 ≤ l.metric
  sums : ∀ u v d c, IsDist G.lsdb.Edge G.spfroot u d → G.lsdb.Edge u v c → d + c < 2 ^ 32
  root_router : ∃ lsa ∈ G.lsdb.list, lsa.linkStateId = G.spfroot ∧ lsa.lsType = .routerLSA
  vertexAddr_injective : Function.Injective G.vertexAddr

variable {G} {v : SPFVertex} {h : Hop}

section HopSpec

theorem mem_hops_router (hv : v.vertexType = .routerLSA) :
    h ∈ G.hops v ↔ ∃ l ∈ v.lsa.linkRecords, l.linkType ≠ .stubNetwork ∧ h.1 = some l ∧
      G.lsdb.getLSA l.linkId = some h.2 := by
  simp only [hops, hv, List.mem_filterMap]
  constructor
  · rintro ⟨l, hl, hh⟩
    by_cases ht : l.linkType = .stubNetwork
    · simp [ht] at hh
    · rw [if_neg ht, Option.map_eq_some_iff] at hh
      obtain ⟨w, hw, rfl⟩ := hh
      exact ⟨l, hl, ht, rfl, hw⟩
  · rintro ⟨l, hl, ht, h₁, h₂⟩
    refine ⟨l, hl, ?_⟩
    rw [if_neg ht, h₂, ← h₁]
    rfl

theorem mem_hops_network (hv : v.vertexType = .networkLSA) :
    h ∈ G.hops v ↔ ∃ addr ∈ v.lsa.attachedRouters, h.1 = none ∧
      G.lsdb.getLSAByLinkData addr = some h.2 := by
  simp only [hops, hv, List.mem_filterMap]
  constructor
  · rintro ⟨addr, ha, hh⟩
    rw [Option.map_eq_some_iff] at hh
    obtain ⟨w, hw, rfl⟩ := hh
    exact ⟨addr, ha, rfl, hw⟩
  · rintro ⟨addr, ha, h₁, h₂⟩
    refine ⟨addr, ha, ?_⟩
    rw [h₂, ← h₁]
    rfl

theorem attached_resolves (hsym : G.lsdb.Symmetric) (hv : v.lsa ∈ G.lsdb.list)
    (hn : v.vertexType = .networkLSA) {addr : Ipv4Address}
    (ha : addr ∈ v.lsa.attachedRouters) :
    ∃ w ∈ G.lsdb.list, G.lsdb.getLSAByLinkData addr = some w ∧ w.lsType = .routerLSA ∧
      ∃ l ∈ w.linkRecords, l.linkType = .transitNetwork ∧ l.linkId = v.vertexId := by
  obtain ⟨w, hw, l, hl, ht, rfl, hid⟩ := hsym.attached v.lsa hv hn addr ha
  obtain ⟨hr, hget, -⟩ := hsym.transit w hw l hl ht
  exact ⟨w, hw, hget, hr, l, hl, ht, hid⟩

theorem hop_stored (hh : h ∈ G.hops v) : h.2 ∈ G.lsdb.list := by
  cases hv : v.vertexType with
  | routerLSA =>
    obtain ⟨l, -, -, -, hget⟩ := (mem_hops_router hv).mp hh
    exact (Lsdb.getLSA_eq_some.mp hget).1
  | networkLSA =>
    obtain ⟨addr, -, -, hget⟩ := (mem_hops_network hv).mp hh
    exact Lsdb.getLSAByLinkData_mem hget

theorem hop_edge (hsym : G.lsdb.Symmetric) (hv : v.lsa ∈ G.lsdb.list) (hh : h ∈ G.hops v) :
    G.lsdb.Edge v.vertexId h.2.linkStateId (hopCost h) := by
  cases hr : v.vertexType with
  | routerLSA =>
    obtain ⟨l, hl, ht, h₁, hget⟩ := (mem_hops_router hr).mp hh
    rw [(Lsdb.getLSA_eq_some.mp hget).2, hopCost, h₁]
    exact .link hv hr hl ht
  | networkLSA =>
    obtain ⟨addr, ha, h₁, hget⟩ := (mem_hops_network hr).mp hh
    obtain ⟨w, hw, hget', hwr, l, hl, ht, hid⟩ := attached_resolves hsym hv hr ha
    rw [hget] at hget'
    cases hget'
    rw [hopCost, h₁]
    exact .attached hv hr hw hwr hl ht hid

theorem edge_hop (hsym : G.lsdb.Symmetric) (hv : v.lsa ∈ G.lsdb.list) {u c : ℕ}
    (he : G.lsdb.Edge v.vertexId u c) :
    ∃ h ∈ G.hops v, h.2.linkStateId = u ∧ hopCost h = c := by
  generalize hid : v.vertexId = i at he
  cases he with
  | @link v' l hv' hr hl ht =>
    obtain rfl := Lsdb.id_injective hv hv' hid
    obtain ⟨w, hw, hwid⟩ : ∃ w ∈ G.lsdb.list, w.linkStateId = l.linkId := by
      cases htype : l.linkType with
      | stubNetwork => exact (ht htype).elim
      | pointToPoint =>
        obtain ⟨w, hw, hwid, -⟩ := hsym.pointToPoint _ hv l hl htype
        exact ⟨w, hw, hwid⟩
      | transitNetwork =>
        obtain ⟨-, -, w, hw, hwid, -⟩ := hsym.transit _ hv l hl htype
        exact ⟨w, hw, hwid⟩
    exact ⟨(some l, w), (mem_hops_router hr).mpr
      ⟨l, hl, ht, rfl, Lsdb.getLSA_eq_some.mpr ⟨hw, hwid⟩⟩, hwid, rfl⟩
  | @attached v' w l hv' hn hw hwr hl ht hlid =>
    obtain rfl := Lsdb.id_injective hv hv' hid
    obtain ⟨-, hget, n, hn', hnid, -, hmem⟩ := hsym.transit w hw l hl ht
    obtain rfl := Lsdb.id_injective hn' hv (hnid.trans hlid)
    exact ⟨(none, w), (mem_hops_network hn).mpr ⟨l.linkData, hmem, rfl, hget⟩, rfl, rfl⟩

theorem hop_link_back (hsym : G.lsdb.Symmetric) (hv : v.lsa ∈ G.lsdb.list)
    (hh : h ∈ G.hops v) (hw : h.2.lsType = .routerLSA) :
    ∃ l ∈ h.2.linkRecords, l.linkId = v.vertexId := by
  cases hr : v.vertexType with
  | routerLSA =>
    obtain ⟨l, hl, ht, h₁, hget⟩ := (mem_hops_router hr).mp hh
    obtain ⟨hmem, hid⟩ := Lsdb.getLSA_eq_some.mp hget
    cases htype : l.linkType with
    | stubNetwork => exact (ht htype).elim
    | pointToPoint =>
      obtain ⟨w, hw', hwid, -, l', hl', -, hback⟩ := hsym.pointToPoint _ hv l hl htype
      obtain rfl := Lsdb.id_injective hw' hmem (hwid.trans hid.symm)
      exact ⟨l', hl', hback⟩
    | transitNetwork =>
      obtain ⟨-, -, n, hn, hnid, hnt, -⟩ := hsym.transit _ hv l hl htype
      obtain rfl := Lsdb.id_injective hn hmem (hnid.trans hid.symm)
      simp [hnt] at hw
  | networkLSA =>
    obtain ⟨addr, ha, h₁, hget⟩ := (mem_hops_network hr).mp hh
    obtain ⟨w, hw', hget', -, l, hl, -, hid⟩ := attached_resolves hsym hv hr ha
    rw [hget] at hget'
    cases hget'
    exact ⟨l, hl, hid⟩

theorem hop_kind (hG : G.Admissible) (hv : v.lsa ∈ G.lsdb.list) (hh : h ∈ G.hops v) :
    (v.vertexType = .routerLSA ∧ (∃ l, h.1 = some l) ∧ 1 ≤ hopCost h) ∨
      v.vertexType = .networkLSA ∧ h.2.lsType = .routerLSA ∧ hopCost h = 0 := by
  cases hr : v.vertexType with
  | routerLSA =>
    obtain ⟨l, hl, ht, h₁, -⟩ := (mem_hops_router hr).mp hh
    refine .inl ⟨rfl, ⟨l, h₁⟩, ?_⟩
    rw [hopCost, h₁]
    exact hG.metric_pos _ hv l hl ht
  | networkLSA =>
    obtain ⟨addr, ha, h₁, hget⟩ := (mem_hops_network hr).mp hh
    obtain ⟨w, -, hget', hwr, -⟩ := attached_resolves hG.symmetric hv hr ha
    rw [hget] at hget'
    cases hget'
    exact .inr ⟨rfl, hwr, by rw [hopCost, h₁]; rfl⟩

end HopSpec

section RootExits
variable {w w' : SPFVertex} {l : Option GlobalRoutingLinkRecord} {fuel k distance : ℕ}

theorem rootExits_lsa (h : G.rootExits fuel v w l = .ok (w', k)) : w'.lsa = w.lsa := by
  unfold rootExits at h
  split at h
  · split at h
    · split at h
      · cases h
        rfl
      · cases h
    · cases h
      rfl
  · split at h
    · split at h
      · exact exitsBehindNetwork_lsa h
      · obtain ⟨r, -, h⟩ := bind_eq_ok.mp h
        cases h
        rfl
    · cases h
      rfl

theorem linksBack_head (h : ∃ l ∈ w.lsa.linkRecords, l.linkId = v.vertexId) :
    ∃ l, (linksBack w v)[0]? = some l := by
  obtain ⟨l, hl, hid⟩ := h
  have hpos : 0 < (linksBack w v).length :=
    List.length_pos_of_mem (List.mem_filter.mpr ⟨hl, by simpa using hid⟩)
  exact ⟨_, List.getElem?_eq_getElem hpos⟩

theorem rootExits_nonempty
    (hback : w.vertexType = .routerLSA → ∃ l ∈ w.lsa.linkRecords, l.linkId = v.vertexId)
    (hkind : v.vertexType = .networkLSA → w.vertexType = .routerLSA)
    (hexits : v.vertexId ≠ G.spfroot → v.ecmpRootExits ≠ [])
    (h : G.rootExits fuel v w l = .ok (w', k)) : w'.ecmpRootExits ≠ [] := by
  unfold rootExits at h
  split at h
  · split at h
    · split at h
      · cases h
        simp [SPFVertex.setRootExitDirection]
      · cases h
    · cases h
      simp [SPFVertex.setRootExitDirection]
  · rename_i hne
    split at h
    · rename_i hv
      split at h
      · obtain ⟨l, hl⟩ := linksBack_head (hback (hkind hv))
        obtain ⟨nodeExit, -, rfl⟩ := exitsBehindNetwork_ok hl h
        simp [SPFVertex.setRootExitDirection]
      · obtain ⟨r, -, h⟩ := bind_eq_ok.mp h
        cases h
        simp [SPFVertex.setRootExitDirection]
    · cases h
      exact hexits hne

/-- The calculation fails only at a directly attached network with three records back. -/
theorem rootExits_total (hfuel : 2 ≤ fuel)
    (hback : w.vertexType = .routerLSA → ∃ l ∈ w.lsa.linkRecords, l.linkId = v.vertexId)
    (hkind : v.vertexType = .networkLSA → w.vertexType = .routerLSA)
    (hlink : v.vertexType = .routerLSA → ∃ l', l = some l')
    (hroot : v.vertexId = G.spfroot → v.vertexType = .routerLSA)
    (hexits : v.vertexId ≠ G.spfroot → v.ecmpRootExits ≠ [])
    (hfew : v.vertexType = .networkLSA → v.getParent 0 = some G.spfroot →
      (linksBack w v).length < 3) :
    ∃ w' k, G.rootExits fuel v w l = .ok (w', k) := by
  unfold rootExits
  by_cases hv : v.vertexId = G.spfroot
  · obtain ⟨l', rfl⟩ := hlink (hroot hv)
    rw [if_pos hv]
    cases hw : w.vertexType with
    | routerLSA =>
      obtain ⟨r, hr⟩ := linksBack_head (hback hw)
      rw [spfGetNextLink_none, hr]
      exact ⟨_, _, rfl⟩
    | networkLSA => exact ⟨_, _, rfl⟩
  · rw [if_neg hv]
    obtain ⟨nodeExit, k, he⟩ := SPFVertex.getRootExitDirection_ok (hexits hv)
    cases ht : v.vertexType with
    | routerLSA => exact ⟨_, _, rfl⟩
    | networkLSA =>
      by_cases hp : v.getParent 0 = some G.spfroot
      · obtain ⟨r, hr⟩ := linksBack_head (hback (hkind ht))
        simp only [if_pos hp]
        exact ⟨_, _, exitsBehindNetwork_ends (hfew ht hp) hfuel hr he⟩
      · simp only [if_neg hp, he]
        exact ⟨_, _, rfl⟩

theorem rootExits_endless (hv : v.vertexId ≠ G.spfroot) (hn : v.vertexType = .networkLSA)
    (hp : v.getParent 0 = some G.spfroot) (hmany : 3 ≤ (linksBack w v).length) :
    G.rootExits fuel v w l ≠ .ok (w', k) := by
  unfold rootExits
  rw [if_neg hv, hn]
  simp only [if_pos hp]
  exact exitsBehindNetwork_endless hmany

theorem spfNexthopCalculation_ok :
    G.spfNexthopCalculation fuel v w l distance = .ok (w', k) ↔
      ∃ w₁, G.rootExits fuel v w l = .ok (w₁, k) ∧
        (w₁.setDistanceFromRoot distance).setParent v.vertexId = w' := by
  unfold spfNexthopCalculation
  rw [bind_eq_ok]
  constructor
  · rintro ⟨⟨w₁, k₁⟩, h₁, h₂⟩
    cases h₂
    exact ⟨w₁, h₁, rfl⟩
  · rintro ⟨w₁, h₁, rfl⟩
    exact ⟨(w₁, k), h₁, rfl⟩

end RootExits

theorem spfNext_eq (hsym : G.lsdb.Symmetric) (hv : v.lsa ∈ G.lsdb.list) (fuel : ℕ)
    (s : SpfState) : G.spfNext fuel v s =
      (G.hops v).foldlM (fun s h => G.explore fuel v h.1 h.2 s) s := by
  cases hr : v.vertexType with
  | routerLSA =>
    simp only [spfNext, hops, hr, List.foldlM_filterMap]
    refine foldlM_congr fun l hl s => ?_
    by_cases ht : l.linkType = .stubNetwork
    · simp [exploreLink, ht, pure, Except.pure]
    · obtain ⟨h, hh, hid, -⟩ := edge_hop hsym hv (.link hv hr hl ht)
      have hget : G.lsdb.getLSA l.linkId = some h.2 :=
        Lsdb.getLSA_eq_some.mpr ⟨hop_stored hh, hid⟩
      rw [if_neg ht, hget]
      cases htype : l.linkType with
      | stubNetwork => exact (ht htype).elim
      | pointToPoint => simp [exploreLink, htype, hget]
      | transitNetwork => simp [exploreLink, htype, hget]
  | networkLSA =>
    simp only [spfNext, hops, hr, List.foldlM_filterMap]
    refine congrArg (fun f => List.foldlM f s v.lsa.attachedRouters) ?_
    funext s addr
    unfold exploreAttached
    cases G.lsdb.getLSAByLinkData addr with
    | none => rfl
    | some w => rfl

end GlobalRouteManager
end NetGymSim.Internet

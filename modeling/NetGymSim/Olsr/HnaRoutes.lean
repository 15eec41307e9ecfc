import NetGymSim.Internet.Ipv4StaticRouting
import NetGymSim.Olsr.RoutingTable

/-!
# The HNA routes

Step 5 of the computation clears the HNA table and fills it again from the association set. The
loop that clears it removes the first route and counts up to a size that shrinks, so that half of
the routes stay. A route that stays is replaced only by one with a smaller metric.
-/

namespace NetGymSim.Olsr
open NetGymSim.Lib NetGymSim.Internet

structure AssociationTuple where
  gatewayAddr : Ipv4Address
  networkAddr : Ipv4Address
  netmask : Ipv4Address
  deriving DecidableEq, Repr

structure Association where
  networkAddr : Ipv4Address
  netmask : Ipv4Address
  deriving DecidableEq, Repr

structure HnaNode where
  associationSet : List AssociationTuple := []
  associations : List Association := []
  table : RoutingTable := fun _ => none
  hnaRoutingTable : NetworkRoutes := []

namespace HnaNode

def networkOf (r : Ipv4RoutingTableEntry × ℕ) : ℕ × ℕ := (r.1.dest, r.1.destNetworkMask)

def leadsTo (t : AssociationTuple) (r : Ipv4RoutingTableEntry × ℕ) : Bool :=
  r.1.dest = t.networkAddr.toNat ∧ r.1.destNetworkMask = t.netmask.toNat

/-- The loop from the turn `i` on; `RemoveRoute(0)` takes the first route away. -/
def clearRoutes (i : ℕ) : NetworkRoutes → NetworkRoutes
  | [] => []
  | r :: routes => if i < (r :: routes).length then clearRoutes (i + 1) routes else r :: routes

def announcedLocally (s : HnaNode) (t : AssociationTuple) : Bool :=
  s.associations.any fun a => a.networkAddr = t.networkAddr ∧ a.netmask = t.netmask

def addGateway (routes : NetworkRoutes) (t : AssociationTuple) (gatewayEntry : RoutingTableEntry) :
    NetworkRoutes :=
  routes.addNetworkRouteTo t.networkAddr.toNat t.netmask.toNat gatewayEntry.nextAddr.toNat
    gatewayEntry.interface gatewayEntry.distance

/-- One association tuple. Without a gateway entry no route is added or removed. -/
def considerAssociation (s : HnaNode) (routes : NetworkRoutes) (t : AssociationTuple) :
    NetworkRoutes :=
  if s.announcedLocally t then routes
  else
    match s.table t.gatewayAddr with
    | none => routes
    | some gatewayEntry =>
      let routeIndex := routes.findIdx (leadsTo t)
      match routes[routeIndex]? with
      | none => addGateway routes t gatewayEntry
      | some route =>
        if route.2 > gatewayEntry.distance then
          addGateway (routes.removeRoute routeIndex) t gatewayEntry
        else routes

/-- Step 5, behind the steps that made the unicast table. -/
def routingTableComputation (s : HnaNode) (table : RoutingTable) : HnaNode :=
  let s := { s with table }
  let routes := s.associationSet.foldl s.considerAssociation (clearRoutes 0 s.hnaRoutingTable)
  { s with hnaRoutingTable := routes }

inductive Event
  | associationSet (tuples : List AssociationTuple)
  | associations (announced : List Association)
  | compute (table : RoutingTable)

def next (s : HnaNode) : Event → HnaNode
  | .associationSet tuples => { s with associationSet := tuples }
  | .associations announced => { s with associations := announced }
  | .compute table => s.routingTableComputation table

def machine : Machine HnaNode Event := ⟨fun _ _ => True, next⟩

def Gateway (s : HnaNode) (t : AssociationTuple) (e : RoutingTableEntry) : Prop :=
  t ∈ s.associationSet ∧ s.announcedLocally t = false ∧ s.table t.gatewayAddr = some e

def routeOver (t : AssociationTuple) (e : RoutingTableEntry) : Ipv4RoutingTableEntry × ℕ :=
  (⟨t.networkAddr.toNat, t.netmask.toNat, e.nextAddr.toNat, e.interface⟩, e.distance)

def Nearest (s : HnaNode) (r : Ipv4RoutingTableEntry × ℕ) : Prop :=
  ∃ t e, s.Gateway t e ∧ r = routeOver t e ∧
    ∀ t' e', s.Gateway t' e' → leadsTo t' r = true → e.distance ≤ e'.distance

structure Current (s : HnaNode) : Prop where
  one : ∀ t e, s.Gateway t e → s.hnaRoutingTable.countP (leadsTo t) = 1
  nearest : ∀ r ∈ s.hnaRoutingTable, s.Nearest r

def survivors (s : HnaNode) : NetworkRoutes :=
  s.hnaRoutingTable.drop ((s.hnaRoutingTable.length + 1) / 2)

/-- Every route that is not cleared is replaced by a nearer gateway, or is right as it is. -/
def Renewed (s : HnaNode) (table : RoutingTable) : Prop :=
  ∀ r ∈ s.survivors, { s with table }.Nearest r ∨
    ∃ t e, { s with table }.Gateway t e ∧ leadsTo t r = true ∧ e.distance < r.2

variable {s : HnaNode} {t : AssociationTuple} {e : RoutingTableEntry}
  {routes left : NetworkRoutes} {done : List AssociationTuple} {r : Ipv4RoutingTableEntry × ℕ}

theorem leadsTo_iff :
    leadsTo t r = true ↔ networkOf r = (t.networkAddr.toNat, t.netmask.toNat) := by
  rw [leadsTo, decide_eq_true_eq, networkOf, Prod.mk.injEq]

theorem leadsTo_routeOver (t : AssociationTuple) (e : RoutingTableEntry) :
    leadsTo t (routeOver t e) = true := leadsTo_iff.mpr rfl

theorem clearRoutes_eq (i : ℕ) (routes : NetworkRoutes) :
    clearRoutes i routes = routes.drop ((routes.length - i + 1) / 2) := by
  induction routes generalizing i with
  | nil => rw [clearRoutes, List.drop_nil]
  | cons r routes ih =>
    rw [clearRoutes]
    split_ifs with hi
    · rw [List.length_cons] at hi ⊢
      have hhalf : (routes.length + 1 - i + 1) / 2 = (routes.length - (i + 1) + 1) / 2 + 1 := by
        omega
      rw [ih, hhalf, List.drop_succ_cons]
    · have hnone : ((r :: routes).length - i + 1) / 2 = 0 := by omega
      rw [hnone, List.drop_zero]

theorem clearRoutes_survivors (s : HnaNode) : clearRoutes 0 s.hnaRoutingTable = s.survivors := by
  rw [clearRoutes_eq, Nat.sub_zero, survivors]

theorem removeRoute_eq (h : (routes.map networkOf).Nodup) (t : AssociationTuple) :
    routes.removeRoute (routes.findIdx (leadsTo t)) = routes.filter fun r => !leadsTo t r := by
  unfold NetworkRoutes.removeRoute
  induction routes with
  | nil => rfl
  | cons r routes ih =>
    rw [List.map_cons, List.nodup_cons] at h
    rw [List.findIdx_cons, List.filter_cons]
    by_cases hr : leadsTo t r = true
    · have hrest : ∀ q ∈ routes, (!leadsTo t q) = true := by
        intro q hq
        rw [Bool.not_eq_true', Bool.eq_false_iff]
        intro hqt
        apply h.1
        rw [leadsTo_iff.mp hr, ← leadsTo_iff.mp hqt]
        exact List.mem_map_of_mem hq
      simp only [hr, cond_true, Bool.not_true, List.eraseIdx_cons_zero,
        List.filter_eq_self.mpr hrest]
      rfl
    · rw [Bool.not_eq_true] at hr
      simp only [hr, cond_false, Bool.not_false, List.eraseIdx_cons_succ, ih h.2, if_true]

theorem countP_leadsTo (h : (routes.map networkOf).Nodup) (hr : r ∈ routes)
    (hlead : leadsTo t r = true) : routes.countP (leadsTo t) = 1 := by
  have hcount : routes.countP (leadsTo t) =
      (routes.map networkOf).count (t.networkAddr.toNat, t.netmask.toNat) := by
    rw [List.count, List.countP_map]
    apply List.countP_congr
    intro q _
    rw [leadsTo_iff, Function.comp_apply, beq_iff_eq]
  rw [hcount]
  apply List.count_eq_one_of_mem h
  rw [← leadsTo_iff.mp hlead]
  exact List.mem_map_of_mem hr

theorem addGateway_eq (h : ∀ q ∈ routes, leadsTo t q = false) (e : RoutingTableEntry) :
    addGateway routes t e = routes ++ [routeOver t e] := by
  have hnew : ¬ NetworkRoutes.lookupRoute routes (routeOver t e).1 e.distance = true := by
    intro hmem
    have hfalse := h _ (of_decide_eq_true hmem)
    rw [show ((routeOver t e).1, e.distance) = routeOver t e from rfl, leadsTo_routeOver] at hfalse
    cases hfalse
  exact if_neg hnew

/-- The table was cleared down to the routes `left` and refilled from the tuples `done`. -/
structure Refilled (s : HnaNode) (left : NetworkRoutes) (done : List AssociationTuple)
    (routes : NetworkRoutes) : Prop where
  distinct : (routes.map networkOf).Nodup
  source : ∀ r ∈ routes, r ∈ left ∨ ∃ t e, s.Gateway t e ∧ r = routeOver t e
  least : ∀ r ∈ routes, ∀ t ∈ done, ∀ e, s.Gateway t e → leadsTo t r = true → r.2 ≤ e.distance
  kept : ∀ q ∈ left, ∃ r ∈ routes, networkOf r = networkOf q ∧ (r = q ∨ r.2 < q.2)
  complete : ∀ t ∈ done, ∀ e, s.Gateway t e → ∃ r ∈ routes, leadsTo t r = true

theorem Refilled.skip (h : Refilled s left done routes)
    (hr : ∀ e, s.Gateway t e → ∃ r ∈ routes, leadsTo t r = true ∧ r.2 ≤ e.distance) :
    Refilled s left (done ++ [t]) routes where
  distinct := h.distinct
  source := h.source
  least r hmem t' ht' e he hlead := by
    obtain ht' | ht' := List.mem_append.mp ht'
    · exact h.least r hmem t' ht' e he hlead
    · rw [List.mem_singleton.mp ht'] at he hlead
      obtain ⟨q, hq, hqlead, hle⟩ := hr e he
      have hsame : networkOf r = networkOf q := (leadsTo_iff.mp hlead).trans
        (leadsTo_iff.mp hqlead).symm
      rwa [List.inj_on_of_nodup_map h.distinct hmem hq hsame]
  kept := h.kept
  complete t' ht' e he := by
    obtain ht' | ht' := List.mem_append.mp ht'
    · exact h.complete t' ht' e he
    · rw [List.mem_singleton.mp ht'] at he ⊢
      obtain ⟨q, hq, hqlead, -⟩ := hr e he
      exact ⟨q, hq, hqlead⟩

theorem Refilled.replace (h : Refilled s left done routes) (hg : s.Gateway t e)
    (hnearer : ∀ r ∈ routes, leadsTo t r = true → e.distance < r.2) :
    Refilled s left (done ++ [t])
      ((routes.filter fun r => !leadsTo t r) ++ [routeOver t e]) := by
  have hmem : ∀ r, r ∈ (routes.filter fun r => !leadsTo t r) ++ [routeOver t e] ↔
      (r ∈ routes ∧ leadsTo t r = false) ∨ r = routeOver t e := by
    intro r
    rw [List.mem_append, List.mem_filter, Bool.not_eq_true', List.mem_singleton]
  have hlead : ∀ t', leadsTo t' (routeOver t e) = true →
      ∀ q, leadsTo t' q = true → leadsTo t q = true := by
    intro t' ht' q hq
    rw [leadsTo_iff] at ht' hq ⊢
    rw [hq, ← ht']
    rfl
  constructor
  · rw [List.map_append, List.nodup_append]
    refine ⟨h.distinct.sublist (List.filter_sublist.map networkOf), List.nodup_singleton _, ?_⟩
    intro a ha b hb
    obtain ⟨q, hq, rfl⟩ := List.mem_map.mp ha
    rw [List.map_singleton, List.mem_singleton] at hb
    have hno := (List.mem_filter.mp hq).2
    rintro heq
    rw [leadsTo_iff.mpr (heq.trans hb)] at hno
    cases hno
  · intro r hr
    obtain ⟨hr, -⟩ | rfl := (hmem r).mp hr
    · exact h.source r hr
    · exact .inr ⟨t, e, hg, rfl⟩
  · intro r hr t' ht' e' he' hr'
    obtain ⟨hr, hno⟩ | rfl := (hmem r).mp hr
    · obtain ht' | ht' := List.mem_append.mp ht'
      · exact h.least r hr t' ht' e' he' hr'
      · rw [List.mem_singleton.mp ht', hno] at hr'
        cases hr'
    · obtain ht' | ht' := List.mem_append.mp ht'
      · obtain ⟨q, hq, hqlead⟩ := h.complete t' ht' e' he'
        have hlt := hnearer q hq (hlead t' hr' q hqlead)
        exact Nat.le_trans (Nat.le_of_lt hlt) (h.least q hq t' ht' e' he' hqlead)
      · obtain rfl := List.mem_singleton.mp ht'
        cases hg.2.2.symm.trans he'.2.2
        exact Nat.le_refl _
  · intro q hq
    obtain ⟨r, hr, hsame, hor⟩ := h.kept q hq
    by_cases hrt : leadsTo t r = true
    · refine ⟨routeOver t e, (hmem _).mpr (.inr rfl), ?_, .inr ?_⟩
      · exact (leadsTo_iff.mp hrt).symm.trans hsame
      · have hlt : e.distance < r.2 := hnearer r hr hrt
        obtain rfl | hlt' := hor
        · exact hlt
        · exact Nat.lt_trans hlt hlt'
    · exact ⟨r, (hmem r).mpr (.inl ⟨hr, Bool.eq_false_iff.mpr hrt⟩), hsame, hor⟩
  · intro t' ht' e' he'
    obtain ht' | ht' := List.mem_append.mp ht'
    · obtain ⟨r, hr, hr'⟩ := h.complete t' ht' e' he'
      by_cases hrt : leadsTo t r = true
      · refine ⟨routeOver t e, (hmem _).mpr (.inr rfl), ?_⟩
        rw [leadsTo_iff] at hr' hrt ⊢
        rw [← hr', hrt]
        rfl
      · exact ⟨r, (hmem r).mpr (.inl ⟨hr, Bool.eq_false_iff.mpr hrt⟩), hr'⟩
    · rw [List.mem_singleton.mp ht']
      exact ⟨_, (hmem _).mpr (.inr rfl), leadsTo_routeOver t e⟩

theorem Refilled.step (h : Refilled s left done routes) (ht : t ∈ s.associationSet) :
    Refilled s left (done ++ [t]) (s.considerAssociation routes t) := by
  unfold considerAssociation
  split_ifs with hlocal
  · apply h.skip
    intro e he
    rw [he.2.1] at hlocal
    cases hlocal
  cases htable : s.table t.gatewayAddr with
  | none =>
    apply h.skip
    intro e he
    rw [he.2.2] at htable
    cases htable
  | some e =>
    have hg : s.Gateway t e := ⟨ht, Bool.eq_false_iff.mpr hlocal, htable⟩
    dsimp only
    cases hroute : routes[routes.findIdx (leadsTo t)]? with
    | none =>
      have hnone : ∀ q ∈ routes, leadsTo t q = false := by
        intro q hq
        rw [List.getElem?_eq_none_iff] at hroute
        exact (List.findIdx_eq_length.mp (Nat.le_antisymm List.findIdx_le_length hroute)) q hq
      have hsame : (routes.filter fun r => !leadsTo t r) = routes := by
        apply List.filter_eq_self.mpr
        intro q hq
        rw [hnone q hq, Bool.not_false]
      dsimp only
      rw [addGateway_eq hnone]
      have hreplaced := h.replace hg fun r hr hlead => by
        rw [hnone r hr] at hlead
        cases hlead
      rwa [hsame] at hreplaced
    | some route =>
      obtain ⟨hlt, rfl⟩ := List.getElem?_eq_some_iff.mp hroute
      have hlead : leadsTo t routes[routes.findIdx (leadsTo t)] = true := List.findIdx_getElem
      dsimp only
      split_ifs with hmetric
      · rw [removeRoute_eq h.distinct, addGateway_eq]
        · apply h.replace hg
          intro r hr hrt
          have hsame := List.inj_on_of_nodup_map h.distinct hr (List.getElem_mem hlt)
            ((leadsTo_iff.mp hrt).trans (leadsTo_iff.mp hlead).symm)
          rw [hsame]
          exact hmetric
        · intro q hq
          exact Bool.not_eq_true' _ ▸ (List.mem_filter.mp hq).2
      · apply h.skip
        intro e' he'
        cases hg.2.2.symm.trans he'.2.2
        exact ⟨_, List.getElem_mem hlt, hlead, Nat.not_lt.mp hmetric⟩

theorem Refilled.start (h : (left.map networkOf).Nodup) : Refilled s left [] left where
  distinct := h
  source _ hr := .inl hr
  least _ _ _ ht := (List.not_mem_nil ht).elim
  kept q hq := ⟨q, hq, rfl, .inl rfl⟩
  complete _ ht := (List.not_mem_nil ht).elim

theorem routingTableComputation_refilled (h : (s.hnaRoutingTable.map networkOf).Nodup)
    (table : RoutingTable) :
    Refilled { s with table } s.survivors s.associationSet
      (s.routingTableComputation table).hnaRoutingTable := by
  unfold routingTableComputation
  dsimp only
  rw [clearRoutes_survivors]
  apply foldl_done (P := fun done routes => Refilled { s with table } s.survivors done routes)
  · intro done t routes ht hr
    exact hr.step ht
  · apply Refilled.start
    exact h.sublist ((List.drop_sublist _ _).map networkOf)

theorem routingTableComputation_current_iff (h : (s.hnaRoutingTable.map networkOf).Nodup)
    (table : RoutingTable) :
    (s.routingTableComputation table).Current ↔ s.Renewed table := by
  have hr := routingTableComputation_refilled h table
  constructor
  · intro hcurrent q hq
    obtain ⟨r, hmem, hsame, rfl | hlt⟩ := hr.kept q hq
    · exact .inl (hcurrent.nearest r hmem)
    · obtain ⟨t, e, hg, rfl, -⟩ := hcurrent.nearest r hmem
      exact .inr ⟨t, e, hg, leadsTo_iff.mpr hsame.symm, hlt⟩
  · intro hrenewed
    constructor
    · intro t e hg
      obtain ⟨r, hmem, hlead⟩ := hr.complete t hg.1 e hg
      exact countP_leadsTo hr.distinct hmem hlead
    · intro r hmem
      have hleast : ∀ t e, { s with table }.Gateway t e → leadsTo t r = true → r.2 ≤ e.distance :=
        fun t e hg => hr.least r hmem t hg.1 e hg
      obtain hleft | ⟨t, e, hg, rfl⟩ := hr.source r hmem
      · obtain hn | ⟨t, e, hg, hlead, hlt⟩ := hrenewed r hleft
        · exact hn
        · exact absurd (hleast t e hg hlead) (Nat.not_le.mpr hlt)
      · exact ⟨t, e, hg, rfl, fun t' e' hg' hlead => hleast t' e' hg' hlead⟩

theorem exec_distinct (es : List Event) :
    ((machine.exec {} es).hnaRoutingTable.map networkOf).Nodup := by
  have hreach := (Machine.Permits.of_free (M := machine) (fun _ _ => trivial) {} es).reaches
  apply Machine.Reaches.invariant
    (P := fun s : HnaNode => (s.hnaRoutingTable.map networkOf).Nodup) _ _ hreach
  · exact List.nodup_nil
  · intro s e hs _
    cases e with
    | associationSet tuples => exact hs
    | associations announced => exact hs
    | compute table => exact (routingTableComputation_refilled hs table).distinct

/-- A run leaves a current table behind each computation just when each finds one in which every
route that is not cleared is renewed. -/
theorem exec_current_iff (es : List Event) :
    (∀ done table, done ++ [.compute table] <+: es →
      (machine.exec {} (done ++ [.compute table])).Current) ↔
    ∀ done table, done ++ [.compute table] <+: es → (machine.exec {} done).Renewed table := by
  refine forall_congr' fun done => forall₂_congr fun table _ => ?_
  rw [Machine.exec_append]
  exact routingTableComputation_current_iff (exec_distinct done) table

/-- Two networks are announced over a gateway that is lost again. -/
def lostGateway : List Event :=
  [.associationSet [⟨2, 0x0a010000, 0xffff0000⟩, ⟨2, 0x0a020000, 0xffff0000⟩],
    .compute (RoutingTable.addEntry (fun _ => none) 2 2 1 1), .compute fun _ => none]

/-- The route to the second network stays. -/
theorem exec_lostGateway : ¬ ∀ (es : List Event) (done : List Event) (table : RoutingTable),
    done ++ [.compute table] <+: es →
      (machine.exec {} (done ++ [.compute table])).Current := by
  intro hall
  have hcurrent := hall lostGateway (lostGateway.take 2) (fun _ => none) (List.prefix_refl _)
  have hstale : (machine.exec {} (lostGateway.take 2 ++ [.compute fun _ => none])).hnaRoutingTable =
      [(⟨0x0a020000, 0xffff0000, 2, 1⟩, 1)] := by
    decide +kernel
  obtain ⟨t, e, hg, -⟩ := hcurrent.nearest _ (hstale ▸ List.mem_cons_self)
  cases hg.2.2

end HnaNode
end NetGymSim.Olsr

import NetGymSim.Lib.ExceptFold
import NetGymSim.Olsr.Repositories
import Mathlib.Logic.Function.Basic
import Mathlib.Tactic.Common

/-!
# The computation of the routing table

The entries are added in layers: the neighbors, the two-hop neighbors, and then, as long as a pass
over the topology set adds something, the destinations that it leads to from the layer before. A
pass never changes an entry, so that the layers fix the distances and only the next hops depend on
the order of the tuples.
-/

namespace NetGymSim.Olsr
open NetGymSim.Lib

structure RoutingTableEntry where
  destAddr : Ipv4Address
  nextAddr : Ipv4Address
  interface : ℕ
  distance : ℕ
  deriving DecidableEq, Repr

/-- `m_table`: a destination has at most one entry. -/
abbrev RoutingTable := Ipv4Address → Option RoutingTableEntry

namespace RoutingTable

def addEntry (table : RoutingTable) (dest next : Ipv4Address) (interface distance : ℕ) :
    RoutingTable :=
  Function.update table dest (some ⟨dest, next, interface, distance⟩)

def AtDistance (table : RoutingTable) (h : ℕ) (dest : Ipv4Address) : Prop :=
  ∃ e, table dest = some e ∧ e.distance = h

end RoutingTable

/-- A link tuple with the fields that the routing table needs besides those of the lookups. -/
structure RouteLink extends LinkTuple where
  localIfaceAddr : Ipv4Address
  time : ℕ
  deriving DecidableEq, Repr

structure IfaceAssocTuple where
  ifaceAddr : Ipv4Address
  mainAddr : Ipv4Address
  deriving DecidableEq, Repr

/-- What the computation reads: the sets of the node, the addresses of each interface of `m_ipv4`
and the clock. -/
structure RoutingNode where
  mainAddress : Ipv4Address
  interfaces : List (List Ipv4Address)
  now : ℕ
  links : List RouteLink
  neighbors : List NeighborTuple
  twoHopNeighbors : List TwoHopNeighborTuple
  topologySet : List TopologyTuple
  ifaceAssocSet : List IfaceAssocTuple := []

namespace RoutingNode

def getMainAddress (s : RoutingNode) (ifaceAddr : Ipv4Address) : Ipv4Address :=
  match s.ifaceAssocSet.find? fun t => t.ifaceAddr = ifaceAddr with
  | some tuple => tuple.mainAddr
  | none => ifaceAddr

/-- The first interface with the address; the number 0 stands behind a failed assertion. -/
def interfaceOf (s : RoutingNode) (interfaceAddress : Ipv4Address) : ℕ :=
  let i := s.interfaces.findIdx fun addresses => interfaceAddress ∈ addresses
  if i < s.interfaces.length then i else 0

def findSymNeighborTuple (s : RoutingNode) (mainAddr : Ipv4Address) : Option NeighborTuple :=
  s.neighbors.find? fun t => t.neighborMainAddr = mainAddr ∧ t.status = .sym

/-- Step 2, inner loop: `lt` is the last link tuple that matched. -/
structure LinkScan where
  table : RoutingTable
  nbMainAddr : Bool := false
  lt : Option RouteLink := none

def considerLink (s : RoutingNode) (nb : NeighborTuple) (w : LinkScan) (link : RouteLink) :
    LinkScan :=
  if s.getMainAddress link.neighborIfaceAddr = nb.neighborMainAddr ∧ s.now ≤ link.time then
    { table := w.table.addEntry link.neighborIfaceAddr link.neighborIfaceAddr
        (s.interfaceOf link.localIfaceAddr) 1
      nbMainAddr := w.nbMainAddr || link.neighborIfaceAddr = nb.neighborMainAddr
      lt := some link }
  else w

def addNeighbor (s : RoutingNode) (table : RoutingTable) (nb : NeighborTuple) : RoutingTable :=
  if nb.status = .sym then
    let w := s.links.foldl (s.considerLink nb) { table }
    match w.nbMainAddr, w.lt with
    | false, some lt =>
        w.table.addEntry nb.neighborMainAddr lt.neighborIfaceAddr
          (s.interfaceOf lt.localIfaceAddr) 1
    | _, _ => w.table
  else table

def addTwoHop (s : RoutingNode) (table : RoutingTable) (t : TwoHopNeighborTuple) : RoutingTable :=
  if (s.findSymNeighborTuple t.twoHopNeighborAddr).isSome then table
  else if t.twoHopNeighborAddr = s.mainAddress then table
  else if s.neighbors.any fun nb =>
      nb.neighborMainAddr = t.neighborMainAddr ∧ nb.willingness ≠ .never then
    match table t.neighborMainAddr with
    | some entry => table.addEntry t.twoHopNeighborAddr entry.nextAddr entry.interface 2
    | none => table
  else table

def addTopology (h : ℕ) (w : RoutingTable × Bool) (t : TopologyTuple) : RoutingTable × Bool :=
  match w.1 t.destAddr, w.1 t.lastAddr with
  | none, some last =>
      if last.distance = h then
        (w.1.addEntry t.destAddr last.nextAddr last.interface (h + 1), true)
      else w
  | _, _ => w

def topologyPass (s : RoutingNode) (h : ℕ) (table : RoutingTable) : RoutingTable × Bool :=
  s.topologySet.foldl (addTopology h) (table, false)

/-- The loop on `h`; nothing when it was not left within so many turns. -/
def topologyLoop (s : RoutingNode) : ℕ → ℕ → RoutingTable → Option RoutingTable
  | 0, _, _ => none
  | turns + 1, h, table =>
      let (table, added) := s.topologyPass h table
      if added then s.topologyLoop turns (h + 1) table else some table

def addIfaceAssoc (table : RoutingTable) (tuple : IfaceAssocTuple) : RoutingTable :=
  match table tuple.mainAddr, table tuple.ifaceAddr with
  | some entry, none =>
      table.addEntry tuple.ifaceAddr entry.nextAddr entry.interface entry.distance
  | _, _ => table

def neighborTable (s : RoutingNode) : RoutingTable :=
  s.neighbors.foldl s.addNeighbor fun _ => none

def twoHopTable (s : RoutingNode) : RoutingTable :=
  s.twoHopNeighbors.foldl s.addTwoHop s.neighborTable

/-- Steps 1 to 4. A pass that adds something finds a new topology destination. -/
def routingTableComputation (s : RoutingNode) : Option RoutingTable :=
  (s.topologyLoop (s.topologySet.length + 1) 2 s.twoHopTable).map fun table =>
    s.ifaceAssocSet.foldl addIfaceAssoc table

/-- The interface associations give no node a second address. -/
def OneInterface (s : RoutingNode) : Prop := ∀ t ∈ s.ifaceAssocSet, t.ifaceAddr = t.mainAddr

def IsSym (s : RoutingNode) (addr : Ipv4Address) : Prop :=
  ∃ nb ∈ s.neighbors, nb.neighborMainAddr = addr ∧ nb.status = .sym

def LinkTo (s : RoutingNode) (link : RouteLink) (addr : Ipv4Address) : Prop :=
  link ∈ s.links ∧ s.now ≤ link.time ∧ link.neighborIfaceAddr = addr

def Linked (s : RoutingNode) (addr : Ipv4Address) : Prop :=
  s.IsSym addr ∧ ∃ link, s.LinkTo link addr

def Willing (s : RoutingNode) (addr : Ipv4Address) : Prop :=
  ∃ nb ∈ s.neighbors, nb.neighborMainAddr = addr ∧ nb.willingness ≠ .never

/-- A way to the address that starts with the link and has each node at its distance. -/
inductive Path (s : RoutingNode) (table : RoutingTable) (link : RouteLink) :
    ℕ → Ipv4Address → Prop
  | neighbor {addr : Ipv4Address} : s.IsSym addr → s.LinkTo link addr →
      table.AtDistance 1 addr → Path s table link 1 addr
  | twoHop {t : TwoHopNeighborTuple} : Path s table link 1 t.neighborMainAddr →
      t ∈ s.twoHopNeighbors → s.Willing t.neighborMainAddr →
      table.AtDistance 2 t.twoHopNeighborAddr → Path s table link 2 t.twoHopNeighborAddr
  | topology {h : ℕ} {t : TopologyTuple} : 2 ≤ h → Path s table link h t.lastAddr →
      t ∈ s.topologySet → table.AtDistance (h + 1) t.destAddr →
      Path s table link (h + 1) t.destAddr

structure Based (s : RoutingNode) (other : Ipv4Address → Prop) (table : RoutingTable) : Prop where
  neighbors : ∀ d, table.AtDistance 1 d ↔ s.Linked d
  twoHops : ∀ d, table.AtDistance 2 d ↔ other d ∧ d ≠ s.mainAddress ∧
    ∃ t ∈ s.twoHopNeighbors, t.twoHopNeighborAddr = d ∧ s.Willing t.neighborMainAddr
  positive : ∀ d, ¬ table.AtDistance 0 d
  dest : ∀ d e, table d = some e → e.destAddr = d
  hops : ∀ d e, table d = some e → ∃ link, Path s table link e.distance d ∧
    e.nextAddr = link.neighborIfaceAddr ∧ e.interface = s.interfaceOf link.localIfaceAddr

/-- The layer behind `h` has the destinations not reached before to which a tuple leads from `h`. -/
def Farther (s : RoutingNode) (table : RoutingTable) (h : ℕ) : Prop :=
  ∀ d, table.AtDistance (h + 1) d ↔ (∀ k ≤ h, ¬ table.AtDistance k d) ∧
    ∃ t ∈ s.topologySet, t.destAddr = d ∧ table.AtDistance h t.lastAddr

structure ShortestPaths (s : RoutingNode) (other : Ipv4Address → Prop)
    (table : RoutingTable) : Prop extends Based s other table where
  farther : ∀ h, 2 ≤ h → s.Farther table h

structure Layers (s : RoutingNode) (other : Ipv4Address → Prop) (h : ℕ)
    (table : RoutingTable) : Prop extends Based s other table where
  farther : ∀ k, 2 ≤ k → k < h → s.Farther table k
  within : ∀ d k, table.AtDistance k d → k ≤ h

structure Passed (h : ℕ) (table : RoutingTable) (done : List TopologyTuple)
    (w : RoutingTable × Bool) : Prop where
  old : ∀ d e, table d = some e → w.1 d = some e
  new : ∀ d e, w.1 d = some e → table d = some e ∨ table d = none ∧
    ∃ t ∈ done, t.destAddr = d ∧ ∃ last, table t.lastAddr = some last ∧ last.distance = h ∧
      e = ⟨d, last.nextAddr, last.interface, h + 1⟩
  complete : ∀ t ∈ done, table.AtDistance h t.lastAddr → w.1 t.destAddr ≠ none
  added : w.2 = true → ∃ t ∈ done, table t.destAddr = none ∧ w.1 t.destAddr ≠ none
  unchanged : w.2 = false → w.1 = table

section Pass
variable {s : RoutingNode} {other : Ipv4Address → Prop} {h : ℕ} {table : RoutingTable}
  {done : List TopologyTuple} {w : RoutingTable × Bool} {t : TopologyTuple}

theorem addEntry_self (table : RoutingTable) (dest next : Ipv4Address) (interface distance : ℕ) :
    table.addEntry dest next interface distance dest = some ⟨dest, next, interface, distance⟩ :=
  Function.update_self _ _ _

theorem addEntry_of_ne {d dest : Ipv4Address} (hd : d ≠ dest) (table : RoutingTable)
    (next : Ipv4Address) (interface distance : ℕ) :
    table.addEntry dest next interface distance d = table d :=
  Function.update_of_ne hd _ _

theorem Passed.start (h : ℕ) (table : RoutingTable) : Passed h table [] (table, false) where
  old _ _ he := he
  new _ _ he := .inl he
  complete _ ht := (List.not_mem_nil ht).elim
  added := nofun
  unchanged _ := rfl

theorem Passed.skip (hw : Passed h table done w)
    (hlast : table.AtDistance h t.lastAddr → w.1 t.destAddr ≠ none) :
    Passed h table (done ++ [t]) w where
  old := hw.old
  new d e he := by
    refine (hw.new d e he).imp id fun ⟨hnone, t', ht', hrest⟩ => ?_
    exact ⟨hnone, t', List.mem_append_left [t] ht', hrest⟩
  complete t' ht' hat := by
    obtain ht' | ht' := List.mem_append.mp ht'
    · exact hw.complete t' ht' hat
    · obtain rfl := List.mem_singleton.mp ht'
      exact hlast hat
  added hadded := by
    obtain ⟨t', ht', hrest⟩ := hw.added hadded
    exact ⟨t', List.mem_append_left [t] ht', hrest⟩
  unchanged := hw.unchanged

theorem Passed.old_of_distance (hw : Passed h table done w) {d : Ipv4Address}
    {e : RoutingTableEntry} (he : w.1 d = some e) (hdistance : e.distance = h) :
    table d = some e := by
  obtain hold | ⟨_, _, _, _, _, _, _, rfl⟩ := hw.new d e he
  · exact hold
  · dsimp only at hdistance
    omega

theorem Passed.fresh (hw : Passed h table done w) {d : Ipv4Address} (hd : w.1 d = none) :
    table d = none := by
  cases htable : table d with
  | none => rfl
  | some e =>
    rw [hw.old d e htable] at hd
    cases hd

theorem Passed.add (hw : Passed h table done w) {last : RoutingTableEntry}
    (hdest : w.1 t.destAddr = none) (hlast : w.1 t.lastAddr = some last)
    (hdistance : last.distance = h) :
    Passed h table (done ++ [t])
      (w.1.addEntry t.destAddr last.nextAddr last.interface (h + 1), true) where
  old d e he := by
    have hne : d ≠ t.destAddr := by
      rintro rfl
      rw [hw.old _ e he] at hdest
      cases hdest
    dsimp only
    rw [addEntry_of_ne hne]
    exact hw.old d e he
  new d e he := by
    dsimp only at he
    by_cases hd : d = t.destAddr
    · subst hd
      rw [addEntry_self] at he
      cases he
      right
      exact ⟨hw.fresh hdest, t, List.mem_append_right done List.mem_cons_self, rfl, last,
        hw.old_of_distance hlast hdistance, hdistance, rfl⟩
    · rw [addEntry_of_ne hd] at he
      refine (hw.new d e he).imp id fun ⟨hnone, t', ht', hrest⟩ => ?_
      exact ⟨hnone, t', List.mem_append_left [t] ht', hrest⟩
  complete t' ht' hat := by
    dsimp only
    by_cases hd : t'.destAddr = t.destAddr
    · rw [hd, addEntry_self]
      exact Option.some_ne_none _
    · rw [addEntry_of_ne hd]
      obtain ht' | ht' := List.mem_append.mp ht'
      · exact hw.complete t' ht' hat
      · rw [List.mem_singleton.mp ht'] at hd
        exact absurd rfl hd
  added _ := by
    refine ⟨t, List.mem_append_right done List.mem_cons_self, hw.fresh hdest, ?_⟩
    dsimp only
    rw [addEntry_self]
    exact Option.some_ne_none _
  unchanged := nofun

theorem Passed.step (hw : Passed h table done w) (t : TopologyTuple) :
    Passed h table (done ++ [t]) (addTopology h w t) := by
  unfold addTopology
  cases hdest : w.1 t.destAddr with
  | some e =>
    apply hw.skip
    rw [hdest]
    exact fun _ => Option.some_ne_none e
  | none =>
    cases hlast : w.1 t.lastAddr with
    | none =>
      apply hw.skip
      rintro ⟨e, he, -⟩
      rw [hw.old _ e he] at hlast
      cases hlast
    | some last =>
      dsimp only
      split_ifs with hdistance
      · exact hw.add hdest hlast hdistance
      · apply hw.skip
        rintro ⟨e, he, heh⟩
        rw [hw.old _ e he] at hlast
        cases hlast
        exact absurd heh hdistance

theorem topologyPass_passed (s : RoutingNode) (h : ℕ) (table : RoutingTable) :
    Passed h table s.topologySet (s.topologyPass h table) := by
  apply foldl_done (P := fun done w => Passed h table done w) _ (Passed.start h table)
  intro done t w _ hw
  exact hw.step t

theorem Passed.atDistance (hw : Passed h table done w) {k : ℕ} {d : Ipv4Address} (hk : k ≤ h) :
    w.1.AtDistance k d ↔ table.AtDistance k d := by
  constructor
  · rintro ⟨e, he, rfl⟩
    obtain hold | ⟨_, _, _, _, _, _, _, rfl⟩ := hw.new d e he
    · exact ⟨e, hold, rfl⟩
    · exact absurd hk (Nat.not_succ_le_self h)
  · rintro ⟨e, he, rfl⟩
    exact ⟨e, hw.old d e he, rfl⟩

theorem Path.mono {table' : RoutingTable} {link : RouteLink} {k : ℕ} {d : Ipv4Address}
    (hgrow : ∀ k d, table.AtDistance k d → table'.AtDistance k d) (hp : Path s table link k d) :
    Path s table' link k d := by
  induction hp with
  | neighbor hsym hlink hat => exact .neighbor hsym hlink (hgrow _ _ hat)
  | twoHop _ ht hwilling hat ih => exact .twoHop ih ht hwilling (hgrow _ _ hat)
  | topology hh _ ht hat ih => exact .topology hh ih ht (hgrow _ _ hat)

theorem Passed.grows (hw : Passed h table done w) (k : ℕ) (d : Ipv4Address)
    (hat : table.AtDistance k d) : w.1.AtDistance k d := by
  obtain ⟨e, he, hk⟩ := hat
  exact ⟨e, hw.old d e he, hk⟩

theorem Based.pass (hb : Based s other table) (hh : 2 ≤ h)
    (hw : Passed h table s.topologySet w) : Based s other w.1 where
  neighbors d := (hw.atDistance (by omega)).trans (hb.neighbors d)
  twoHops d := (hw.atDistance hh).trans (hb.twoHops d)
  positive d := by
    rw [hw.atDistance (Nat.zero_le h)]
    exact hb.positive d
  dest d e he := by
    obtain hold | ⟨_, _, _, _, _, _, _, rfl⟩ := hw.new d e he
    · exact hb.dest d e hold
    · rfl
  hops d e he := by
    obtain hold | ⟨_, t, ht, rfl, last, hlast, rfl, rfl⟩ := hw.new d e he
    · obtain ⟨link, hpath, hrest⟩ := hb.hops d e hold
      exact ⟨link, hpath.mono hw.grows, hrest⟩
    · obtain ⟨link, hpath, hrest⟩ := hb.hops _ last hlast
      exact ⟨link, .topology hh (hpath.mono hw.grows) ht ⟨_, he, rfl⟩, hrest⟩

theorem Farther.congr {table' : RoutingTable} {k : ℕ}
    (hsame : ∀ j ≤ k + 1, ∀ d, table'.AtDistance j d ↔ table.AtDistance j d)
    (hf : s.Farther table k) : s.Farther table' k := by
  intro d
  rw [hsame (k + 1) (Nat.le_refl _), hf d]
  apply and_congr
  · exact forall₂_congr fun j hj => not_congr (hsame j (by omega) d).symm
  · exact exists_congr fun t => and_congr_right fun _ => and_congr_right fun _ =>
      (hsame k (Nat.le_succ k) _).symm

theorem Layers.pass (hl : Layers s other h table) (hh : 2 ≤ h)
    (hw : Passed h table s.topologySet w) : Layers s other (h + 1) w.1 where
  toBased := hl.toBased.pass hh hw
  farther k hk hkh := by
    obtain hlt | rfl := Nat.lt_succ_iff_lt_or_eq.mp hkh
    · exact (hl.farther k hk hlt).congr fun j hj d => hw.atDistance (by omega)
    intro d
    constructor
    · rintro ⟨e, he, hdistance⟩
      obtain hold | ⟨hnone, t, ht, rfl, last, hlast, hlastk, rfl⟩ := hw.new d e he
      · have := hl.within d _ ⟨e, hold, rfl⟩
        omega
      · constructor
        · intro j hj hat
          obtain ⟨e', he', -⟩ := (hw.atDistance hj).mp hat
          rw [hnone] at he'
          cases he'
        · exact ⟨t, ht, rfl, hw.grows _ _ ⟨last, hlast, hlastk⟩⟩
    · rintro ⟨hfirst, t, ht, rfl, hat⟩
      have hsome := hw.complete t ht ((hw.atDistance (Nat.le_refl k)).mp hat)
      obtain ⟨e, he⟩ := Option.ne_none_iff_exists'.mp hsome
      obtain hold | ⟨_, _, _, _, _, _, _, rfl⟩ := hw.new _ e he
      · exact absurd ⟨e, he, rfl⟩ (hfirst _ (hl.within _ _ ⟨e, hold, rfl⟩))
      · exact ⟨_, he, rfl⟩
  within d k hat := by
    obtain ⟨e, he, rfl⟩ := hat
    obtain hold | ⟨_, _, _, _, _, _, _, rfl⟩ := hw.new d e he
    · have := hl.within d _ ⟨e, hold, rfl⟩
      omega
    · exact Nat.le_refl _

theorem Layers.finish (hl : Layers s other h table) (hnext : Layers s other (h + 1) table) :
    ShortestPaths s other table where
  toBased := hl.toBased
  farther k hk := by
    by_cases hkh : k < h + 1
    · exact hnext.farther k hk hkh
    intro d
    have hnone : ∀ j, h < j → ∀ d, ¬ table.AtDistance j d := by
      intro j hj d hat
      have := hl.within d j hat
      omega
    apply iff_of_false (hnone (k + 1) (by omega) d)
    rintro ⟨-, t, -, -, hat⟩
    exact hnone k (by omega) _ hat

def unreached (s : RoutingNode) (table : RoutingTable) : ℕ :=
  s.topologySet.countP fun t => table t.destAddr = none

theorem Passed.unreached_lt (hw : Passed h table s.topologySet w) (hadded : w.2 = true) :
    s.unreached w.1 < s.unreached table := by
  obtain ⟨t, ht, hnone, hsome⟩ := hw.added hadded
  have hboth : s.unreached w.1 =
      (s.topologySet.filter fun t => table t.destAddr = none).countP
        fun t => w.1 t.destAddr = none := by
    rw [List.countP_filter]
    apply List.countP_congr
    intro t' _
    rw [Bool.and_eq_true, decide_eq_true_eq, decide_eq_true_eq]
    exact ⟨fun hw' => ⟨hw', hw.fresh hw'⟩, And.left⟩
  rw [hboth, unreached, List.countP_eq_length_filter (l := s.topologySet),
    List.countP_lt_length_iff]
  exact ⟨t, List.mem_filter.mpr ⟨ht, decide_eq_true hnone⟩, decide_eq_false hsome⟩

theorem topologyLoop_spec {turns : ℕ} (hl : Layers s other h table) (hh : 2 ≤ h)
    (hturns : s.unreached table < turns) :
    ∃ final, s.topologyLoop turns h table = some final ∧ ShortestPaths s other final := by
  induction turns generalizing h table with
  | zero => exact absurd hturns (Nat.not_lt_zero _)
  | succ turns ih =>
    have hw := topologyPass_passed s h table
    have hnext := hl.pass hh hw
    rw [topologyLoop]
    by_cases hadded : (s.topologyPass h table).2 = true
    · have hfewer := hw.unreached_lt hadded
      obtain ⟨final, hfinal, hpaths⟩ := ih hnext (by omega) (by omega)
      refine ⟨final, ?_, hpaths⟩
      dsimp only
      rw [if_pos hadded, hfinal]
    · dsimp only
      rw [if_neg hadded]
      have hsame := hw.unchanged (Bool.eq_false_iff.mpr hadded)
      rw [hsame] at hnext ⊢
      exact ⟨table, rfl, hl.finish hnext⟩

end Pass

section FirstLayers
variable {s : RoutingNode} {table : RoutingTable} {nb : NeighborTuple} {link : RouteLink}

theorem getMainAddress_eq (hone : s.OneInterface) (ifaceAddr : Ipv4Address) :
    s.getMainAddress ifaceAddr = ifaceAddr := by
  unfold getMainAddress
  cases hfind : s.ifaceAssocSet.find? fun t => t.ifaceAddr = ifaceAddr with
  | none => rfl
  | some tuple =>
    have haddr : tuple.ifaceAddr = ifaceAddr := by simpa using List.find?_some hfind
    exact (hone tuple (List.mem_of_find?_eq_some hfind)).symm.trans haddr

def linkEntry (s : RoutingNode) (link : RouteLink) : RoutingTableEntry :=
  ⟨link.neighborIfaceAddr, link.neighborIfaceAddr, s.interfaceOf link.localIfaceAddr, 1⟩

structure LinksDone (s : RoutingNode) (nb : NeighborTuple) (table : RoutingTable)
    (done : List RouteLink) (w : LinkScan) : Prop where
  other : ∀ d, d ≠ nb.neighborMainAddr → w.table d = table d
  kept : (∀ link ∈ done, ¬ s.LinkTo link nb.neighborMainAddr) → w.table = table
  entry : ∀ link ∈ done, s.LinkTo link nb.neighborMainAddr → ∃ link',
    s.LinkTo link' nb.neighborMainAddr ∧ w.table nb.neighborMainAddr = some (s.linkEntry link')
  flag : w.nbMainAddr = w.lt.isSome

theorem LinksDone.step {done : List RouteLink} {w : LinkScan} (hone : s.OneInterface)
    (hw : LinksDone s nb table done w) (hlink : link ∈ s.links) :
    LinksDone s nb table (done ++ [link]) (s.considerLink nb w link) := by
  unfold considerLink
  rw [getMainAddress_eq hone]
  split_ifs with hmatch
  · obtain ⟨hmain, hfresh⟩ := hmatch
    have hto : s.LinkTo link nb.neighborMainAddr := ⟨hlink, hfresh, hmain⟩
    constructor
    · intro d hd
      dsimp only
      rw [hmain, addEntry_of_ne hd]
      exact hw.other d hd
    · intro hnone
      exact absurd hto (hnone link (List.mem_append_right done List.mem_cons_self))
    · intro _ _ _
      refine ⟨link, hto, ?_⟩
      dsimp only
      rw [← hmain, addEntry_self]
      rfl
    · dsimp only
      rw [decide_eq_true hmain, Bool.or_true, Option.isSome_some]
  · have hno : ¬ s.LinkTo link nb.neighborMainAddr := fun hto => hmatch ⟨hto.2.2, hto.2.1⟩
    constructor
    · exact hw.other
    · intro hnone
      exact hw.kept fun link' hlink' => hnone link' (List.mem_append_left [link] hlink')
    · intro link' hlink' hto
      obtain hlink' | hlink' := List.mem_append.mp hlink'
      · exact hw.entry link' hlink' hto
      · rw [List.mem_singleton.mp hlink'] at hto
        exact absurd hto hno
    · exact hw.flag

theorem addNeighbor_of_sym (hone : s.OneInterface) (hsym : nb.status = .sym) :
    ∃ w, LinksDone s nb table s.links w ∧ s.addNeighbor table nb = w.table := by
  have hw : LinksDone s nb table s.links (s.links.foldl (s.considerLink nb) { table }) := by
    apply foldl_done (P := fun done w => LinksDone s nb table done w)
    · intro done link w hlink hw
      exact hw.step hone hlink
    · exact ⟨fun _ _ => rfl, fun _ => rfl, fun _ hmem => (List.not_mem_nil hmem).elim, rfl⟩
  refine ⟨_, hw, ?_⟩
  unfold addNeighbor
  rw [if_pos hsym]
  generalize s.links.foldl (s.considerLink nb) { table } = w at hw
  obtain ⟨table', nbMainAddr, lt⟩ := w
  obtain rfl : nbMainAddr = lt.isSome := hw.flag
  cases lt with
  | none => rfl
  | some lt => rfl

structure NeighborsDone (s : RoutingNode) (done : List NeighborTuple) (table : RoutingTable) :
    Prop where
  sound : ∀ d e, table d = some e → (∃ nb ∈ done, nb.neighborMainAddr = d ∧ nb.status = .sym) ∧
    ∃ link, s.LinkTo link d ∧ e = s.linkEntry link
  complete : ∀ nb ∈ done, nb.status = .sym → (∃ link, s.LinkTo link nb.neighborMainAddr) →
    table nb.neighborMainAddr ≠ none

theorem NeighborsDone.step {done : List NeighborTuple} (hone : s.OneInterface)
    (ht : NeighborsDone s done table) (nb : NeighborTuple) :
    NeighborsDone s (done ++ [nb]) (s.addNeighbor table nb) := by
  by_cases hsym : nb.status = .sym
  · obtain ⟨w, hw, heq⟩ := @addNeighbor_of_sym s table nb hone hsym
    rw [heq]
    have hentry : (∃ link, s.LinkTo link nb.neighborMainAddr) → ∃ link,
        s.LinkTo link nb.neighborMainAddr ∧
          w.table nb.neighborMainAddr = some (s.linkEntry link) :=
      fun ⟨link, hto⟩ => hw.entry link hto.1 hto
    have hmem : nb ∈ done ++ [nb] := List.mem_append_right done List.mem_cons_self
    constructor
    · intro d e he
      have hold : table d = some e → (∃ nb' ∈ done ++ [nb],
          nb'.neighborMainAddr = d ∧ nb'.status = .sym) ∧
            ∃ link, s.LinkTo link d ∧ e = s.linkEntry link := by
        intro he
        obtain ⟨⟨nb', hnb', hrest⟩, hlink⟩ := ht.sound d e he
        exact ⟨⟨nb', List.mem_append_left [nb] hnb', hrest⟩, hlink⟩
      by_cases hd : d = nb.neighborMainAddr
      · subst hd
        by_cases hlinked : ∃ link, s.LinkTo link nb.neighborMainAddr
        · obtain ⟨link, hto, hlink⟩ := hentry hlinked
          rw [hlink] at he
          cases he
          exact ⟨⟨nb, hmem, rfl, hsym⟩, link, hto, rfl⟩
        · rw [hw.kept fun link _ hto => hlinked ⟨link, hto⟩] at he
          exact hold he
      · rw [hw.other d hd] at he
        exact hold he
    · intro nb' hnb' hsym' hlinked
      by_cases hd : nb'.neighborMainAddr = nb.neighborMainAddr
      · rw [hd] at hlinked ⊢
        obtain ⟨link, -, hlink⟩ := hentry hlinked
        rw [hlink]
        exact Option.some_ne_none _
      · rw [hw.other _ hd]
        obtain hnb' | hnb' := List.mem_append.mp hnb'
        · exact ht.complete nb' hnb' hsym' hlinked
        · rw [List.mem_singleton.mp hnb'] at hd
          exact absurd rfl hd
  · have heq : s.addNeighbor table nb = table := if_neg hsym
    rw [heq]
    constructor
    · intro d e he
      obtain ⟨⟨nb', hnb', hrest⟩, hlink⟩ := ht.sound d e he
      exact ⟨⟨nb', List.mem_append_left [nb] hnb', hrest⟩, hlink⟩
    · intro nb' hnb' hsym' hlinked
      obtain hnb' | hnb' := List.mem_append.mp hnb'
      · exact ht.complete nb' hnb' hsym' hlinked
      · rw [List.mem_singleton.mp hnb'] at hsym'
        exact absurd hsym' hsym

theorem neighborTable_done (hone : s.OneInterface) :
    NeighborsDone s s.neighbors s.neighborTable := by
  apply foldl_done (P := fun done table => NeighborsDone s done table)
  · intro done nb table _ ht
    exact ht.step hone nb
  · exact ⟨nofun, fun _ hnb => (List.not_mem_nil hnb).elim⟩

theorem neighborTable_iff (hone : s.OneInterface) (d : Ipv4Address) :
    s.neighborTable d ≠ none ↔ s.Linked d := by
  have hdone := neighborTable_done hone
  constructor
  · intro hsome
    obtain ⟨e, he⟩ := Option.ne_none_iff_exists'.mp hsome
    obtain ⟨hsym, link, hto, -⟩ := hdone.sound d e he
    exact ⟨hsym, link, hto⟩
  · rintro ⟨⟨nb, hnb, rfl, hsym⟩, hlinked⟩
    exact hdone.complete nb hnb hsym hlinked

theorem findSymNeighborTuple_isSome (s : RoutingNode) (addr : Ipv4Address) :
    (s.findSymNeighborTuple addr).isSome = true ↔ s.IsSym addr := by
  rw [findSymNeighborTuple, List.find?_isSome]
  exact exists_congr fun nb => and_congr_right fun _ => decide_eq_true_iff

theorem any_willing (s : RoutingNode) (addr : Ipv4Address) :
    (s.neighbors.any fun nb => nb.neighborMainAddr = addr ∧ nb.willingness ≠ .never) = true ↔
      s.Willing addr := by
  rw [List.any_eq_true]
  exact exists_congr fun nb => and_congr_right fun _ => decide_eq_true_iff

def Admitted (s : RoutingNode) (t : TwoHopNeighborTuple) : Prop :=
  ¬ s.IsSym t.twoHopNeighborAddr ∧ t.twoHopNeighborAddr ≠ s.mainAddress ∧
    s.Willing t.neighborMainAddr

theorem addTwoHop_admitted {t : TwoHopNeighborTuple} (h : s.Admitted t)
    {entry : RoutingTableEntry} (hentry : table t.neighborMainAddr = some entry) :
    s.addTwoHop table t =
      table.addEntry t.twoHopNeighborAddr entry.nextAddr entry.interface 2 := by
  obtain ⟨hsym, hmain, hwilling⟩ := h
  rw [addTwoHop, if_neg (mt (findSymNeighborTuple_isSome s _).mp hsym), if_neg hmain,
    if_pos ((any_willing s _).mpr hwilling), hentry]

theorem addTwoHop_not_admitted {t : TwoHopNeighborTuple} (h : ¬ s.Admitted t) :
    s.addTwoHop table t = table := by
  unfold addTwoHop
  split_ifs with hsym hmain hwilling
  · rfl
  · rfl
  · exact absurd ⟨mt (findSymNeighborTuple_isSome s _).mpr hsym, hmain,
      (any_willing s _).mp hwilling⟩ h
  · rfl

structure TwoHopsDone (s : RoutingNode) (done : List TwoHopNeighborTuple) (table : RoutingTable) :
    Prop where
  near : ∀ d, s.IsSym d → table d = s.neighborTable d
  sound : ∀ d e, ¬ s.IsSym d → table d = some e → ∃ t ∈ done, t.twoHopNeighborAddr = d ∧
    s.Admitted t ∧ ∃ entry, s.neighborTable t.neighborMainAddr = some entry ∧
      e = ⟨d, entry.nextAddr, entry.interface, 2⟩
  complete : ∀ t ∈ done, s.Admitted t → table t.twoHopNeighborAddr ≠ none

theorem TwoHopsDone.step {done : List TwoHopNeighborTuple} (hone : s.OneInterface)
    (ht : TwoHopsDone s done table) {t : TwoHopNeighborTuple}
    (hlinked : s.Linked t.neighborMainAddr) :
    TwoHopsDone s (done ++ [t]) (s.addTwoHop table t) := by
  have hsound : ∀ d e, ¬ s.IsSym d → table d = some e → ∃ t' ∈ done ++ [t],
      t'.twoHopNeighborAddr = d ∧ s.Admitted t' ∧ ∃ entry,
        s.neighborTable t'.neighborMainAddr = some entry ∧
          e = ⟨d, entry.nextAddr, entry.interface, 2⟩ := by
    intro d e hd he
    obtain ⟨t', ht', hrest⟩ := ht.sound d e hd he
    exact ⟨t', List.mem_append_left [t] ht', hrest⟩
  by_cases hadmitted : s.Admitted t
  · obtain ⟨entry, hentry⟩ :=
      Option.ne_none_iff_exists'.mp ((neighborTable_iff hone _).mpr hlinked)
    have hsame : table t.neighborMainAddr = some entry := (ht.near _ hlinked.1).trans hentry
    rw [addTwoHop_admitted hadmitted hsame]
    constructor
    · intro d hd
      have hne : d ≠ t.twoHopNeighborAddr := fun heq => hadmitted.1 (heq ▸ hd)
      rw [addEntry_of_ne hne]
      exact ht.near d hd
    · intro d e hd he
      by_cases heq : d = t.twoHopNeighborAddr
      · subst heq
        rw [addEntry_self] at he
        cases he
        exact ⟨t, List.mem_append_right done List.mem_cons_self, rfl, hadmitted, entry, hentry,
          rfl⟩
      · rw [addEntry_of_ne heq] at he
        exact hsound d e hd he
    · intro t' ht' hadmitted'
      by_cases heq : t'.twoHopNeighborAddr = t.twoHopNeighborAddr
      · rw [heq, addEntry_self]
        exact Option.some_ne_none _
      · rw [addEntry_of_ne heq]
        obtain ht' | ht' := List.mem_append.mp ht'
        · exact ht.complete t' ht' hadmitted'
        · rw [List.mem_singleton.mp ht'] at heq
          exact absurd rfl heq
  · rw [addTwoHop_not_admitted hadmitted]
    constructor
    · exact ht.near
    · exact hsound
    · intro t' ht' hadmitted'
      obtain ht' | ht' := List.mem_append.mp ht'
      · exact ht.complete t' ht' hadmitted'
      · rw [List.mem_singleton.mp ht'] at hadmitted'
        exact absurd hadmitted' hadmitted

theorem twoHopTable_done (hone : s.OneInterface)
    (hlinked : ∀ t ∈ s.twoHopNeighbors, s.Linked t.neighborMainAddr) :
    TwoHopsDone s s.twoHopNeighbors s.twoHopTable := by
  apply foldl_done (P := fun done table => TwoHopsDone s done table)
  · intro done t table ht hdone
    exact hdone.step hone (hlinked t ht)
  · constructor
    · exact fun _ _ => rfl
    · intro d e hd he
      have hsome : s.neighborTable d ≠ none := by
        rw [he]
        exact Option.some_ne_none e
      exact absurd ((neighborTable_iff hone d).mp hsome).1 hd
    · exact fun _ ht => (List.not_mem_nil ht).elim

theorem twoHopTable_entry (hone : s.OneInterface)
    (hlinked : ∀ t ∈ s.twoHopNeighbors, s.Linked t.neighborMainAddr) {d : Ipv4Address}
    {e : RoutingTableEntry} (he : s.twoHopTable d = some e) :
    (s.IsSym d ∧ ∃ link, s.LinkTo link d ∧ e = s.linkEntry link) ∨
      ∃ t ∈ s.twoHopNeighbors, t.twoHopNeighborAddr = d ∧ s.Admitted t ∧ ∃ link,
        s.LinkTo link t.neighborMainAddr ∧
          e = ⟨d, link.neighborIfaceAddr, s.interfaceOf link.localIfaceAddr, 2⟩ := by
  have hdone := twoHopTable_done hone hlinked
  by_cases hd : s.IsSym d
  · rw [hdone.near d hd] at he
    exact .inl ⟨hd, ((neighborTable_done hone).sound d e he).2⟩
  · right
    obtain ⟨t, ht, htd, hadmitted, entry, hentry, rfl⟩ := hdone.sound d e hd he
    obtain ⟨-, link, hto, rfl⟩ := (neighborTable_done hone).sound _ entry hentry
    exact ⟨t, ht, htd, hadmitted, link, hto, rfl⟩

theorem twoHopTable_one (hone : s.OneInterface)
    (hlinked : ∀ t ∈ s.twoHopNeighbors, s.Linked t.neighborMainAddr) (d : Ipv4Address) :
    s.twoHopTable.AtDistance 1 d ↔ s.Linked d := by
  constructor
  · rintro ⟨e, he, hdistance⟩
    obtain ⟨hsym, link, hto, rfl⟩ | ⟨_, _, _, _, _, _, rfl⟩ := twoHopTable_entry hone hlinked he
    · exact ⟨hsym, link, hto⟩
    · cases hdistance
  · intro hd
    obtain ⟨e, he⟩ := Option.ne_none_iff_exists'.mp ((neighborTable_iff hone d).mpr hd)
    obtain ⟨-, link, -, rfl⟩ := (neighborTable_done hone).sound d e he
    exact ⟨_, ((twoHopTable_done hone hlinked).near d hd.1).trans he, rfl⟩

theorem twoHopTable_two (hone : s.OneInterface)
    (hlinked : ∀ t ∈ s.twoHopNeighbors, s.Linked t.neighborMainAddr) (d : Ipv4Address) :
    s.twoHopTable.AtDistance 2 d ↔ ¬ s.IsSym d ∧ d ≠ s.mainAddress ∧
      ∃ t ∈ s.twoHopNeighbors, t.twoHopNeighborAddr = d ∧ s.Willing t.neighborMainAddr := by
  constructor
  · rintro ⟨e, he, hdistance⟩
    obtain ⟨_, _, _, rfl⟩ | ⟨t, ht, rfl, ⟨hsym, hmain, hwilling⟩, -⟩ :=
      twoHopTable_entry hone hlinked he
    · cases hdistance
    · exact ⟨hsym, hmain, t, ht, rfl, hwilling⟩
  · rintro ⟨hsym, hmain, t, ht, rfl, hwilling⟩
    have hsome := (twoHopTable_done hone hlinked).complete t ht ⟨hsym, hmain, hwilling⟩
    obtain ⟨e, he⟩ := Option.ne_none_iff_exists'.mp hsome
    obtain ⟨hsym', -⟩ | ⟨_, _, _, _, _, _, rfl⟩ := twoHopTable_entry hone hlinked he
    · exact absurd hsym' hsym
    · exact ⟨_, he, rfl⟩

theorem twoHopTable_layers (hone : s.OneInterface)
    (hlinked : ∀ t ∈ s.twoHopNeighbors, s.Linked t.neighborMainAddr) :
    Layers s (fun d => ¬ s.IsSym d) 2 s.twoHopTable where
  neighbors := twoHopTable_one hone hlinked
  twoHops := twoHopTable_two hone hlinked
  positive d := by
    rintro ⟨e, he, hdistance⟩
    obtain ⟨_, _, _, rfl⟩ | ⟨_, _, _, _, _, _, rfl⟩ := twoHopTable_entry hone hlinked he
    · cases hdistance
    · cases hdistance
  dest d e he := by
    obtain ⟨_, _, hto, rfl⟩ | ⟨_, _, _, _, _, _, rfl⟩ := twoHopTable_entry hone hlinked he
    · exact hto.2.2
    · rfl
  hops d e he := by
    obtain ⟨hsym, link, hto, rfl⟩ | ⟨t, ht, rfl, hadmitted, link, hto, rfl⟩ :=
      twoHopTable_entry hone hlinked he
    · exact ⟨link, .neighbor hsym hto ⟨_, he, rfl⟩, rfl, rfl⟩
    · have hfirst := hlinked t ht
      refine ⟨link, .twoHop (.neighbor hfirst.1 hto ?_) ht hadmitted.2.2 ⟨_, he, rfl⟩, rfl, rfl⟩
      exact (twoHopTable_one hone hlinked _).mpr hfirst
  farther k hk hk2 := absurd hk (Nat.not_le.mpr hk2)
  within d k hat := by
    obtain ⟨e, he, rfl⟩ := hat
    obtain ⟨_, _, _, rfl⟩ | ⟨_, _, _, _, _, _, rfl⟩ := twoHopTable_entry hone hlinked he
    · exact Nat.le_succ 1
    · exact Nat.le_refl 2

theorem addIfaceAssoc_eq {tuple : IfaceAssocTuple} (h : tuple.ifaceAddr = tuple.mainAddr) :
    addIfaceAssoc table tuple = table := by
  rw [addIfaceAssoc, h]
  cases table tuple.mainAddr with
  | none => rfl
  | some e => rfl

theorem routingTableComputation_shortestPaths (s : RoutingNode) (hone : s.OneInterface)
    (hlinked : ∀ t ∈ s.twoHopNeighbors, s.Linked t.neighborMainAddr) :
    ∃ table, s.routingTableComputation = some table ∧
      ShortestPaths s (fun d => ¬ s.IsSym d) table := by
  have hturns : s.unreached s.twoHopTable < s.topologySet.length + 1 :=
    Nat.lt_succ_of_le List.countP_le_length
  obtain ⟨table, htable, hpaths⟩ :=
    topologyLoop_spec (twoHopTable_layers hone hlinked) (Nat.le_refl 2) hturns
  refine ⟨table, ?_, hpaths⟩
  rw [routingTableComputation, htable]
  apply congrArg some
  apply foldl_done (P := fun _ table' => table' = table) _ rfl
  rintro _ tuple table' htuple rfl
  exact addIfaceAssoc_eq (hone tuple htuple)

end FirstLayers

def chainNode : RoutingNode where
  mainAddress := 1
  interfaces := [[0x7f000001], [1]]
  now := 5
  links := [⟨⟨2, 9⟩, 1, 9⟩]
  neighbors := [⟨2, .sym, 3⟩]
  twoHopNeighbors := [⟨2, 3⟩]
  topologySet := [⟨4, 3, 1, 9⟩, ⟨3, 4, 1, 9⟩, ⟨1, 4, 1, 9⟩]

def lapsedNode : RoutingNode where
  mainAddress := 1
  interfaces := [[0x7f000001], [1]]
  now := 5
  links := [⟨⟨2, 9⟩, 1, 9⟩, ⟨⟨3, 4⟩, 1, 4⟩]
  neighbors := [⟨2, .sym, 3⟩, ⟨3, .sym, 3⟩]
  twoHopNeighbors := [⟨2, 3⟩]
  topologySet := []

theorem routingTableComputation_chainNode :
    ∃ table, chainNode.routingTableComputation = some table ∧
      ShortestPaths chainNode (fun d => ¬ chainNode.IsSym d) table := by
  apply routingTableComputation_shortestPaths
  · exact fun _ ht => (List.not_mem_nil ht).elim
  · intro t ht
    rw [List.mem_singleton.mp ht]
    exact ⟨⟨_, List.mem_cons_self, rfl, rfl⟩, _, List.mem_cons_self, by decide, rfl⟩

/-- The topology set leads back to the node, which is a destination like any other. -/
example : (chainNode.routingTableComputation.map fun table => (table 4, table 1)) =
    some (some ⟨4, 2, 1, 3⟩, some ⟨1, 2, 1, 4⟩) := by decide +kernel

/-- A symmetric neighbor with an expired link has no route, though a two-hop tuple leads to it. -/
theorem routingTableComputation_lapsedNode :
    ¬ ∀ s : RoutingNode, s.OneInterface →
      (∀ t ∈ s.twoHopNeighbors, s.Linked t.neighborMainAddr) →
      ∃ table, s.routingTableComputation = some table ∧
        ShortestPaths s (fun d => ¬ s.Linked d) table := by
  intro hall
  obtain ⟨table, htable, hpaths⟩ := hall lapsedNode (fun _ ht => (List.not_mem_nil ht).elim) (by
    intro t ht
    rw [List.mem_singleton.mp ht]
    exact ⟨⟨_, List.mem_cons_self, rfl, rfl⟩, _, List.mem_cons_self, by decide, rfl⟩)
  have hunlinked : ¬ lapsedNode.Linked 3 := by
    rintro ⟨-, link, hlink, hfresh, haddr⟩
    have hexpired : ∀ link ∈ lapsedNode.links, link.neighborIfaceAddr = 3 → link.time < 5 := by
      decide
    exact Nat.not_le.mpr (hexpired link hlink haddr) hfresh
  have hat : table.AtDistance 2 3 := (hpaths.twoHops 3).mpr
    ⟨hunlinked, by decide, ⟨2, 3⟩, List.mem_cons_self, rfl, _, List.mem_cons_self, rfl, by decide⟩
  obtain ⟨e, he, -⟩ := hat
  have hnone : (lapsedNode.routingTableComputation.map fun table => table 3) = some none := by
    decide +kernel
  rw [htable, Option.map_some, he] at hnone
  cases hnone

end RoutingNode
end NetGymSim.Olsr

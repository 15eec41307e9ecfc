import NetGymSim.Lib.ShortestPath
import NetGymSim.Lib.SortedUnique
import Mathlib.Data.List.Nodup

/-!
# The link-state database

LSAs as `BuildGlobalRoutingDatabase` collects them, with the two lookups: by link state id,
and by the link data of a transit link. Of the link types only those that routers advertise
are there. The graph of the database is read off the LSAs of the routers: a link costs its
metric, and the way from a network to an attached router costs nothing.
-/

namespace NetGymSim.Internet
open NetGymSim.Lib

abbrev Ipv4Address := ℕ
abbrev Ipv4Mask := ℕ

inductive LSType
  | routerLSA | networkLSA
  deriving DecidableEq, Repr

inductive LinkType
  | pointToPoint | transitNetwork | stubNetwork
  deriving DecidableEq, Repr

/-- `linkId` is a router id for a point-to-point link and the id of a network for a transit
link; `linkData` is the local address in both cases. -/
structure GlobalRoutingLinkRecord where
  linkId : Ipv4Address
  linkData : Ipv4Address
  linkType : LinkType
  metric : ℕ
  deriving DecidableEq, Repr

structure GlobalRoutingLSA where
  lsType : LSType
  linkStateId : Ipv4Address
  linkRecords : List GlobalRoutingLinkRecord := []
  networkLSANetworkMask : Ipv4Mask := 0
  attachedRouters : List Ipv4Address := []
  deriving DecidableEq, Repr

/-- `m_database`, in the order of the ids. -/
structure Lsdb where
  list : List GlobalRoutingLSA
  sorted : (list.map GlobalRoutingLSA.linkStateId).Pairwise (· < ·)

namespace Lsdb

def getLSA (db : Lsdb) (addr : Ipv4Address) : Option GlobalRoutingLSA :=
  db.list.find? fun lsa => lsa.linkStateId = addr

def getLSAByLinkData (db : Lsdb) (addr : Ipv4Address) : Option GlobalRoutingLSA :=
  db.list.find? fun lsa =>
    lsa.linkRecords.any fun l => l.linkType = .transitNetwork ∧ l.linkData = addr

/-- The graph: links of routers that are not stubs, and the way back from a network to a
router that has a link to it. -/
inductive Edge (db : Lsdb) : Ipv4Address → Ipv4Address → ℕ → Prop
  | link {v : GlobalRoutingLSA} {l : GlobalRoutingLinkRecord} : v ∈ db.list →
      v.lsType = .routerLSA → l ∈ v.linkRecords → l.linkType ≠ .stubNetwork →
      Edge db v.linkStateId l.linkId l.metric
  | attached {v w : GlobalRoutingLSA} {l : GlobalRoutingLinkRecord} : v ∈ db.list →
      v.lsType = .networkLSA → w ∈ db.list → w.lsType = .routerLSA → l ∈ w.linkRecords →
      l.linkType = .transitNetwork → l.linkId = v.linkStateId →
      Edge db v.linkStateId w.linkStateId 0

/-- Links are symmetric: a point-to-point link leads to a router with a link back; a transit
link leads to a network that lists its address, and an address listed by a network leads back
to the router with that link. -/
structure Symmetric (db : Lsdb) : Prop where
  pointToPoint : ∀ v ∈ db.list, ∀ l ∈ v.linkRecords, l.linkType = .pointToPoint →
    ∃ w ∈ db.list, w.linkStateId = l.linkId ∧ w.lsType = .routerLSA ∧
      ∃ l' ∈ w.linkRecords, l'.linkType = .pointToPoint ∧ l'.linkId = v.linkStateId
  transit : ∀ v ∈ db.list, ∀ l ∈ v.linkRecords, l.linkType = .transitNetwork →
    v.lsType = .routerLSA ∧ db.getLSAByLinkData l.linkData = some v ∧
      ∃ w ∈ db.list, w.linkStateId = l.linkId ∧ w.lsType = .networkLSA ∧
        l.linkData ∈ w.attachedRouters
  attached : ∀ v ∈ db.list, v.lsType = .networkLSA → ∀ a ∈ v.attachedRouters,
    ∃ w ∈ db.list, ∃ l ∈ w.linkRecords, l.linkType = .transitNetwork ∧ l.linkData = a ∧
      l.linkId = v.linkStateId

section Lookups
variable {db : Lsdb} {v w : GlobalRoutingLSA} {addr : Ipv4Address}

theorem id_injective (hv : v ∈ db.list) (hw : w ∈ db.list)
    (h : v.linkStateId = w.linkStateId) : v = w := by
  have hnd : (db.list.map GlobalRoutingLSA.linkStateId).Nodup :=
    db.sorted.imp fun hlt => Nat.ne_of_lt hlt
  exact List.inj_on_of_nodup_map hnd hv hw h

theorem getLSA_eq_some : db.getLSA addr = some v ↔ v ∈ db.list ∧ v.linkStateId = addr := by
  constructor
  · intro h
    exact ⟨List.mem_of_find?_eq_some h, by simpa using List.find?_some h⟩
  · rintro ⟨hv, rfl⟩
    cases hf : db.getLSA v.linkStateId with
    | none =>
      have := List.find?_eq_none.mp hf v hv
      simp at this
    | some w =>
      have hid : w.linkStateId = v.linkStateId := by simpa using List.find?_some hf
      rw [id_injective (List.mem_of_find?_eq_some hf) hv hid]

theorem getLSAByLinkData_mem (h : db.getLSAByLinkData addr = some v) : v ∈ db.list :=
  List.mem_of_find?_eq_some h

end Lookups
end Lsdb
end NetGymSim.Internet

/-!
## Vertices of the shortest-path tree and the candidate queue

A vertex carries its distance, the exits from the root and its parents. The queue is a list
in the order of `CompareSPFVertex`: by distance, a network before a router. Changing a queued
vertex leaves its place as it is until `Reorder` sorts the list again.
-/

namespace NetGymSim.Internet
open NetGymSim.Lib

abbrev NodeExit := Ipv4Address × ℤ

structure SPFVertex where
  lsa : GlobalRoutingLSA
  distanceFromRoot : ℕ := 4294967295
  ecmpRootExits : List NodeExit := []
  parents : List Ipv4Address := []
  deriving DecidableEq, Repr

namespace SPFVertex

def vertexId (v : SPFVertex) : Ipv4Address := v.lsa.linkStateId

def vertexType (v : SPFVertex) : LSType := v.lsa.lsType

def setDistanceFromRoot (v : SPFVertex) (distance : ℕ) : SPFVertex :=
  { v with distanceFromRoot := distance }

def setParent (v : SPFVertex) (parent : Ipv4Address) : SPFVertex :=
  { v with parents := [parent] }

def getParent (v : SPFVertex) (i : ℕ) : Option Ipv4Address := v.parents[i]?

/-- Parents are pointers and are sorted as such; `vertexAddr` is where the vertex of an id
lies. -/
def mergeParent (vertexAddr : Ipv4Address → ℕ) (w v : SPFVertex) : SPFVertex :=
  { w with
    parents := unique <|
      (w.parents ++ v.parents).insertionSort fun a b => vertexAddr a ≤ vertexAddr b }

def setRootExitDirection (v : SPFVertex) (nodeExit : NodeExit) : SPFVertex :=
  { v with ecmpRootExits := [nodeExit] }

def mergeRootExitDirections (w v : SPFVertex) : SPFVertex :=
  { w with
    ecmpRootExits := unique <|
      (w.ecmpRootExits ++ v.ecmpRootExits).insertionSort fun a b =>
        a.1 < b.1 ∨ a.1 = b.1 ∧ a.2 ≤ b.2 }

def inheritAllRootExitDirections (w v : SPFVertex) : SPFVertex :=
  { w with ecmpRootExits := v.ecmpRootExits }

section Merge
variable {vertexAddr : Ipv4Address → ℕ} {v w : SPFVertex} {u : Ipv4Address}

theorem mem_mergeParent :
    u ∈ (w.mergeParent vertexAddr v).parents ↔ u ∈ w.parents ∨ u ∈ v.parents := by
  simp [mergeParent, mem_unique, List.mem_insertionSort]

theorem mergeParent_sorted :
    (w.mergeParent vertexAddr v).parents.Pairwise fun a b => vertexAddr a ≤ vertexAddr b := by
  have : Std.Total fun a b => vertexAddr a ≤ vertexAddr b := ⟨fun a b => Nat.le_total _ _⟩
  have : IsTrans Ipv4Address fun a b => vertexAddr a ≤ vertexAddr b :=
    ⟨fun _ _ _ => Nat.le_trans⟩
  exact (List.pairwise_insertionSort _ _).sublist (unique_sublist _)

theorem mem_mergeRootExitDirections {nodeExit : NodeExit} :
    nodeExit ∈ (w.mergeRootExitDirections v).ecmpRootExits ↔
      nodeExit ∈ w.ecmpRootExits ∨ nodeExit ∈ v.ecmpRootExits := by
  simp [mergeRootExitDirections, mem_unique, List.mem_insertionSort]

theorem mergeRootExitDirections_nodup : (w.mergeRootExitDirections v).ecmpRootExits.Nodup := by
  let le : ℕ × ℤ → ℕ × ℤ → Prop := fun a b => a.1 < b.1 ∨ a.1 = b.1 ∧ a.2 ≤ b.2
  have : Std.Total le := ⟨fun a b => by simp only [le]; omega⟩
  have : IsTrans (ℕ × ℤ) le := ⟨fun a b c hab hbc => by simp only [le] at *; omega⟩
  refine unique_nodup (r := le) (fun a b hab hba => ?_) (List.pairwise_insertionSort le _)
  simp only [le] at hab hba
  exact Prod.ext (by omega) (by omega)

end Merge
end SPFVertex

def compareSPFVertex (v1 v2 : SPFVertex) : Bool :=
  if v1.distanceFromRoot < v2.distanceFromRoot then true
  else if v1.distanceFromRoot = v2.distanceFromRoot then
    v1.vertexType = .networkLSA ∧ v2.vertexType = .routerLSA
  else false

abbrev MayPrecede (a b : SPFVertex) : Prop := compareSPFVertex b a = false

namespace CandidateQueue

/-- `std::upper_bound`: behind everything the new vertex does not precede. -/
def push (vNew : SPFVertex) : List SPFVertex → List SPFVertex
  | [] => [vNew]
  | c :: cs => if compareSPFVertex vNew c then vNew :: c :: cs else c :: push vNew cs

def find (candidates : List SPFVertex) (addr : Ipv4Address) : Option SPFVertex :=
  candidates.find? fun v => v.vertexId = addr

def reorder (candidates : List SPFVertex) : List SPFVertex := candidates.insertionSort MayPrecede

def store (cw : SPFVertex) (candidates : List SPFVertex) : List SPFVertex :=
  candidates.map fun v => if v.vertexId = cw.vertexId then cw else v

end CandidateQueue

section Order
variable {a b c : SPFVertex}

theorem mayPrecede_iff : MayPrecede a b ↔ a.distanceFromRoot < b.distanceFromRoot ∨
    a.distanceFromRoot = b.distanceFromRoot ∧
      (b.vertexType = .networkLSA → a.vertexType = .networkLSA) := by
  unfold MayPrecede compareSPFVertex
  cases a.vertexType <;> cases b.vertexType <;> simp <;> omega

theorem MayPrecede.le (h : MayPrecede a b) : a.distanceFromRoot ≤ b.distanceFromRoot := by
  rcases mayPrecede_iff.mp h with hlt | ⟨heq, -⟩
  · exact Nat.le_of_lt hlt
  · exact Nat.le_of_eq heq

theorem MayPrecede.trans (hab : MayPrecede a b) (hbc : MayPrecede b c) : MayPrecede a c := by
  rw [mayPrecede_iff] at *
  rcases hab with hab | ⟨hab, tab⟩ <;> rcases hbc with hbc | ⟨hbc, tbc⟩
  · exact .inl (hab.trans hbc)
  · exact .inl (hbc ▸ hab)
  · exact .inl (hab ▸ hbc)
  · exact .inr ⟨hab.trans hbc, fun h => tab (tbc h)⟩

theorem MayPrecede.total (a b : SPFVertex) : MayPrecede a b ∨ MayPrecede b a := by
  simp only [mayPrecede_iff]
  rcases Nat.lt_trichotomy a.distanceFromRoot b.distanceFromRoot with h | h | h
  · exact .inl (.inl h)
  · cases ha : a.vertexType
    · exact .inr (.inr ⟨h.symm, fun h' => by simp at h'⟩)
    · exact .inl (.inr ⟨h, fun _ => rfl⟩)
  · exact .inr (.inl h)

instance : IsTrans SPFVertex MayPrecede := ⟨fun _ _ _ => MayPrecede.trans⟩

instance : Std.Total MayPrecede := ⟨MayPrecede.total⟩

end Order

namespace CandidateQueue
variable {v cw : SPFVertex} {candidates : List SPFVertex} {addr : Ipv4Address}

theorem push_perm : (push v candidates).Perm (v :: candidates) := by
  induction candidates with
  | nil => exact .refl _
  | cons c cs ih =>
    unfold push
    split
    · exact .refl _
    · exact (ih.cons c).trans (.swap v c cs)

theorem push_sorted (h : candidates.Pairwise MayPrecede) :
    (push v candidates).Pairwise MayPrecede := by
  induction candidates with
  | nil => exact List.pairwise_singleton _ v
  | cons c cs ih =>
    obtain ⟨hc, hcs⟩ := List.pairwise_cons.mp h
    unfold push
    split
    · rename_i hvc
      have hvc : MayPrecede v c := by
        rcases MayPrecede.total v c with h | h
        · exact h
        · simp [MayPrecede, hvc] at h
      exact List.pairwise_cons.mpr ⟨fun x hx => by
        rcases List.mem_cons.mp hx with rfl | hx
        · exact hvc
        · exact hvc.trans (hc x hx), h⟩
    · rename_i hvc
      refine List.pairwise_cons.mpr ⟨fun x hx => ?_, ih hcs⟩
      rcases List.mem_cons.mp (push_perm.mem_iff.mp hx) with rfl | hx
      · simpa using hvc
      · exact hc x hx

theorem reorder_perm : (reorder candidates).Perm candidates :=
  List.perm_insertionSort MayPrecede candidates

theorem reorder_sorted : (reorder candidates).Pairwise MayPrecede :=
  List.pairwise_insertionSort MayPrecede candidates

theorem find_some (h : find candidates addr = some cw) :
    cw ∈ candidates ∧ cw.vertexId = addr :=
  ⟨List.mem_of_find?_eq_some h, by simpa using List.find?_some h⟩

theorem exists_find (hv : v ∈ candidates) : ∃ cw, find candidates v.vertexId = some cw := by
  cases hf : find candidates v.vertexId with
  | some cw => exact ⟨cw, rfl⟩
  | none =>
    have := List.find?_eq_none.mp hf v hv
    simp at this

theorem map_vertexId_store :
    (store cw candidates).map SPFVertex.vertexId = candidates.map SPFVertex.vertexId := by
  unfold store
  rw [List.map_map]
  refine List.map_congr_left fun v _ => ?_
  by_cases h : v.vertexId = cw.vertexId
  · simp [h]
  · simp [h]

theorem mem_store (hv : v ∈ candidates) (hid : v.vertexId = cw.vertexId) {x : SPFVertex} :
    x ∈ store cw candidates ↔ x = cw ∨ x ∈ candidates ∧ x.vertexId ≠ cw.vertexId := by
  unfold store
  rw [List.mem_map]
  constructor
  · rintro ⟨y, hy, rfl⟩
    by_cases h : y.vertexId = cw.vertexId
    · exact .inl (if_pos h)
    · rw [if_neg h]
      exact .inr ⟨hy, h⟩
  · rintro (rfl | ⟨hx, hne⟩)
    · exact ⟨v, hv, if_pos hid⟩
    · exact ⟨x, hx, if_neg hne⟩

theorem store_sorted (h : candidates.Pairwise MayPrecede)
    (hrank : ∀ v ∈ candidates, v.vertexId = cw.vertexId →
      v.distanceFromRoot = cw.distanceFromRoot ∧ v.vertexType = cw.vertexType) :
    (store cw candidates).Pairwise MayPrecede := by
  have hsame : ∀ v ∈ candidates,
      (if v.vertexId = cw.vertexId then cw else v).distanceFromRoot = v.distanceFromRoot ∧
        (if v.vertexId = cw.vertexId then cw else v).vertexType = v.vertexType := by
    intro v hv
    split
    · rename_i hid
      exact ⟨(hrank v hv hid).1.symm, (hrank v hv hid).2.symm⟩
    · exact ⟨rfl, rfl⟩
  unfold store
  rw [List.pairwise_map]
  refine h.imp_of_mem fun {a b} ha hb hab => ?_
  rw [mayPrecede_iff] at *
  rw [(hsame a ha).1, (hsame a ha).2, (hsame b hb).1, (hsame b hb).2]
  exact hab

end CandidateQueue
end NetGymSim.Internet

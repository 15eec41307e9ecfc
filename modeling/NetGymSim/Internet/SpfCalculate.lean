import Mathlib.Algebra.Order.Ring.Nat
import NetGymSim.Internet.SpfVertex

/-!
# The SPF calculation

`SPFCalculate` for one root. The walk over the interfaces of the root's node that finds an
outgoing interface is a parameter, and so are the addresses of the vertices. A failed
assertion on the number of exits is counted and the calculation goes on, as in a build
without assertions. The loops have a bound on their turns, `unfinished` when it is used up.
-/

namespace NetGymSim.Internet
open CandidateQueue

inductive SPFStatus
  | notExplored | candidate | inSpfTree
  deriving DecidableEq, Repr

inductive SpfError
  /-- A null pointer is followed. -/
  | nullPointer
  /-- The first exit of an empty list is read. -/
  | noExit
  | unfinished
  deriving DecidableEq, Repr

structure GlobalRouteManager where
  lsdb : Lsdb
  spfroot : Ipv4Address
  nNodes : ℕ
  findOutgoingInterfaceId : Ipv4Address → Ipv4Mask → ℤ
  vertexAddr : Ipv4Address → ℕ

structure SpfState where
  status : Ipv4Address → SPFStatus
  candidate : List SPFVertex := []
  tree : List SPFVertex
  failedAssertions : ℕ := 0

def nextLink (vertexId : Ipv4Address) :
    Bool → Bool → List GlobalRoutingLinkRecord → Option GlobalRoutingLinkRecord
  | _, _, [] => none
  | skip, foundPrevLink, l :: ls =>
    if l.linkId = vertexId then
      if !foundPrevLink then nextLink vertexId skip true ls
      else if !skip then some l
      else nextLink vertexId false foundPrevLink ls
    else nextLink vertexId skip foundPrevLink ls

def spfGetNextLink (v w : SPFVertex) (prevLink : Option GlobalRoutingLinkRecord) :
    Option GlobalRoutingLinkRecord :=
  nextLink w.vertexId prevLink.isSome prevLink.isNone v.lsa.linkRecords

def SPFVertex.getRootExitDirection (v : SPFVertex) : Except SpfError (NodeExit × ℕ) :=
  match v.ecmpRootExits with
  | [] => .error .noExit
  | nodeExit :: others => .ok (nodeExit, if others = [] then 0 else 1)

def exitsBehindNetwork (v : SPFVertex) :
    ℕ → Option GlobalRoutingLinkRecord → SPFVertex → Except SpfError (SPFVertex × ℕ)
  | 0, _, _ => .error .unfinished
  | fuel + 1, prevLink, w =>
    match spfGetNextLink w v prevLink with
    | none => .ok (w, 0)
    | some linkRemote => do
      let (nodeExit, failed) ← v.getRootExitDirection
      let (w, more) ← exitsBehindNetwork v fuel (some linkRemote)
        (w.setRootExitDirection (linkRemote.linkData, nodeExit.2))
      return (w, failed + more)

namespace GlobalRouteManager
variable (G : GlobalRouteManager)

def rootExits (fuel : ℕ) (v w : SPFVertex) (l : Option GlobalRoutingLinkRecord) :
    Except SpfError (SPFVertex × ℕ) :=
  if v.vertexId = G.spfroot then
    match w.vertexType with
    | .routerLSA =>
      match l, spfGetNextLink w v none with
      | some l, some linkRemote =>
        .ok (w.setRootExitDirection
          (linkRemote.linkData, G.findOutgoingInterfaceId l.linkData 4294967295), 0)
      | _, _ => .error .nullPointer
    | .networkLSA =>
      .ok (w.setRootExitDirection
        (0, G.findOutgoingInterfaceId w.lsa.linkStateId w.lsa.networkLSANetworkMask), 0)
  else
    match v.vertexType with
    | .networkLSA =>
      if v.getParent 0 = some G.spfroot then
        exitsBehindNetwork v fuel none w
      else do
        let (nodeExit, failed) ← v.getRootExitDirection
        return (w.setRootExitDirection nodeExit, failed)
    | .routerLSA => .ok (w.inheritAllRootExitDirections v, 0)

def spfNexthopCalculation (fuel : ℕ) (v w : SPFVertex) (l : Option GlobalRoutingLinkRecord)
    (distance : ℕ) : Except SpfError (SPFVertex × ℕ) := do
  let (w, failed) ← G.rootExits fuel v w l
  return ((w.setDistanceFromRoot distance).setParent v.vertexId, failed)

/-- Cost `D` of the path to the vertex behind `v`, a `uint32_t`. -/
def hopDistance (v : SPFVertex) (l : Option GlobalRoutingLinkRecord) : ℕ :=
  (v.distanceFromRoot + (l.map GlobalRoutingLinkRecord.metric).getD 0) % 2 ^ 32

/-- One turn of the loop of `SPFNext`, from where the LSA of `w` is known. -/
def explore (fuel : ℕ) (v : SPFVertex) (l : Option GlobalRoutingLinkRecord)
    (wLsa : GlobalRoutingLSA) (s : SpfState) : Except SpfError SpfState :=
  match s.status wLsa.linkStateId with
  | .inSpfTree => .ok s
  | .notExplored => do
    let (w, failed) ← G.spfNexthopCalculation fuel v { lsa := wLsa } l (hopDistance v l)
    return { s with
      status := Function.update s.status wLsa.linkStateId .candidate
      candidate := push w s.candidate
      failedAssertions := s.failedAssertions + failed }
  | .candidate =>
    match find s.candidate wLsa.linkStateId with
    | none => .error .nullPointer
    | some cw =>
      if cw.distanceFromRoot < hopDistance v l then
        .ok s
      else if cw.distanceFromRoot = hopDistance v l then do
        let (w, failed) ← G.spfNexthopCalculation fuel v { lsa := wLsa } l (hopDistance v l)
        return { s with
          candidate := store ((cw.mergeRootExitDirections w).mergeParent G.vertexAddr w)
            s.candidate
          failedAssertions := s.failedAssertions + failed }
      else do
        let (cw, failed) ← G.spfNexthopCalculation fuel v cw l (hopDistance v l)
        return { s with
          candidate := reorder (store cw s.candidate)
          failedAssertions := s.failedAssertions + failed }

def exploreLink (fuel : ℕ) (v : SPFVertex) (s : SpfState) (l : GlobalRoutingLinkRecord) :
    Except SpfError SpfState :=
  match l.linkType with
  | .stubNetwork => .ok s
  | .pointToPoint | .transitNetwork =>
    match G.lsdb.getLSA l.linkId with
    | none => .error .nullPointer
    | some wLsa => G.explore fuel v (some l) wLsa s

def exploreAttached (fuel : ℕ) (v : SPFVertex) (s : SpfState) (addr : Ipv4Address) :
    Except SpfError SpfState :=
  match G.lsdb.getLSAByLinkData addr with
  | none => .ok s
  | some wLsa => G.explore fuel v none wLsa s

def spfNext (fuel : ℕ) (v : SPFVertex) (s : SpfState) : Except SpfError SpfState :=
  match v.vertexType with
  | .routerLSA => v.lsa.linkRecords.foldlM (G.exploreLink fuel v) s
  | .networkLSA => v.lsa.attachedRouters.foldlM (G.exploreAttached fuel v) s

def addToTree (v : SPFVertex) (rest : List SPFVertex) (s : SpfState) : SpfState :=
  { s with
    status := Function.update s.status v.vertexId .inSpfTree
    candidate := rest
    tree := s.tree ++ [v] }

def spfLoop (fuel : ℕ) : ℕ → SPFVertex → SpfState → Except SpfError SpfState
  | 0, _, _ => .error .unfinished
  | turns + 1, v, s => do
    let s ← G.spfNext fuel v s
    match s.candidate with
    | [] => return s
    | v :: rest => spfLoop fuel turns v (addToTree v rest s)

def checkForStubNode : Except SpfError Bool :=
  match G.lsdb.getLSA G.spfroot with
  | none => .error .nullPointer
  | some rlsa =>
    match rlsa.linkRecords.filter fun l => l.linkType ≠ .stubNetwork with
    | [] => .ok true
    | [transitLink] =>
      if transitLink.linkType = .pointToPoint then
        match G.lsdb.getLSA transitLink.linkId with
        | none => .error .nullPointer
        | some wLsa => .ok (wLsa.linkRecords.any fun lr =>
            lr.linkType = .pointToPoint ∧ lr.linkId = rlsa.linkStateId)
      else .ok false
    | _ => .ok false

def shortCircuits : Except SpfError Bool :=
  if 0 < G.nNodes then G.checkForStubNode else .ok false

def rootVertex (lsa : GlobalRoutingLSA) : SPFVertex := { lsa, distanceFromRoot := 0 }

def initialState (lsa : GlobalRoutingLSA) : SpfState where
  status := Function.update (fun _ => .notExplored) lsa.linkStateId .inSpfTree
  tree := [rootVertex lsa]

def spfCalculate (fuel : ℕ) : Except SpfError SpfState :=
  match G.lsdb.getLSA G.spfroot with
  | none => .error .nullPointer
  | some lsa => do
    if ← G.shortCircuits then return initialState lsa
    else G.spfLoop fuel fuel (rootVertex lsa) (initialState lsa)

end GlobalRouteManager
end NetGymSim.Internet

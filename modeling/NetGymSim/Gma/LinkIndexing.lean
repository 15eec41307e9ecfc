import NetGymSim.Gma.BurstSchedule
import NetGymSim.Gma.BurstSums
import NetGymSim.Gma.ControlLinks
import NetGymSim.Gma.DefaultLink
import Mathlib.Data.List.Sort

/-!
# Indices of links

`AddPhyLink` gives a link its place in three containers: the vector of the link state and the
devices of the measurement manager keep the order of registration, the map of link parameters
keeps the order of the ids. A decision, the sender of the data and the measurements count along
the vectors, `SendCtrlMsg`, `RcvReverseTsu` and the actions of a learner along the map. They mean
the same links exactly when the ids were registered in increasing order, at both ends.
-/

namespace NetGymSim.Gma
open NetGymSim.Lib

structure LinkRegistry where
  linkState : LinkState := { cidList := [] }
  deviceList : List Cid := []
  linkParamsMap : LinkIds := ⟨[], LinkIds.nil_sorted⟩

namespace LinkIds

/-- `m_linkParamsMap[cid] = linkParams` for a new key. -/
def insertNew (links : LinkIds) (cid : Cid) (h : cid ∉ links.list) : LinkIds where
  list := links.list.orderedInsert (· ≤ ·) cid
  sorted := by
    have hle : (links.list.orderedInsert (· ≤ ·) cid).Pairwise (· ≤ ·) :=
      (links.sorted.imp fun hlt => le_of_lt hlt).orderedInsert cid links.list
    have hnd : (links.list.orderedInsert (· ≤ ·) cid).Nodup :=
      (List.perm_orderedInsert _ cid links.list).nodup_iff.mpr
        (List.nodup_cons.mpr ⟨h, links.sorted.imp fun hlt => ne_of_lt hlt⟩)
    exact hle.imp₂ (fun _ _ hle hne => lt_of_le_of_ne hle hne) hnd

end LinkIds

namespace LinkRegistry

def addPhyLink (s : LinkRegistry) (cid : Cid) : LinkRegistry :=
  if h : cid ∈ s.linkParamsMap.list then s
  else
    let linkState := s.linkState.addLinkCid cid
    { linkState := if linkState.defaultLinkCid ≠ cid then (linkState.ctrlMsgDown cid).1
        else linkState
      deviceList := s.deviceList ++ [cid]
      linkParamsMap := s.linkParamsMap.insertNew cid h }

def registered (order : List Cid) : LinkRegistry := order.foldl addPhyLink {}

/-- `ReceiveDlSplitWeightAction` once it rounded the weights: the shares are meant for the links
in the order of the map. -/
def splitWeightAction (s : LinkRegistry) (burstPerLink : List ℕ) : RlAction where
  links := s.linkParamsMap.list.length % 256
  cidList := s.linkParamsMap.list
  ratio := GmaRxControl.fixRounding GmaRxControl.maxSplittingBurst burstPerLink

def tsuLinks (s : LinkRegistry) (kVector : List ℕ) : List Cid :=
  Endpoint.linkTargets s.linkParamsMap { type := .tsu, kVector }

/-- `RcvReverseTsu` generates a decision per link, each of which replaces the list of the
receiver. -/
def rcvReverseTsu (s : LinkRegistry) (kVector : List ℕ) (rx : GmaRxControl) :
    GmaRxControl × List (Cid × SplittingDecision) :=
  ((s.linkParamsMap.list.zip kVector).filter fun p => p.2 ≠ 0).foldl (fun v p =>
    let (rx, d) := GmaRxControl.generateTrafficSplittingDecision s.linkState v.1 p.1 false
    (rx, v.2 ++ [(p.1, d)])) (rx, [])

section Registration
variable {s : LinkRegistry} {order : List Cid} {cid : Cid}

structure Registry (s : LinkRegistry) : Prop where
  devices : s.deviceList = s.linkState.cidList
  keys : s.linkParamsMap.list.Perm s.linkState.cidList

theorem Registry.nodup (h : s.Registry) : s.linkState.cidList.Nodup :=
  h.keys.nodup_iff.mp (s.linkParamsMap.sorted.imp fun hlt => ne_of_lt hlt)

theorem addPhyLink_cidList (h : cid ∉ s.linkParamsMap.list) :
    (s.addPhyLink cid).linkState.cidList = s.linkState.cidList ++ [cid] := by
  unfold addPhyLink
  rw [dif_neg h]
  change (if _ then _ else _ : LinkState).cidList = _
  split_ifs
  · exact LinkState.markDown_cidList _ _ _
  · rfl

theorem Registry.addPhyLink (h : s.Registry) (cid : Cid) : (s.addPhyLink cid).Registry := by
  by_cases hknown : cid ∈ s.linkParamsMap.list
  · unfold LinkRegistry.addPhyLink
    rwa [dif_pos hknown]
  · have hlist := addPhyLink_cidList hknown
    have hkeys : (s.addPhyLink cid).linkParamsMap = s.linkParamsMap.insertNew cid hknown := by
      unfold LinkRegistry.addPhyLink
      rw [dif_neg hknown]
    have hdevices : (s.addPhyLink cid).deviceList = s.deviceList ++ [cid] := by
      unfold LinkRegistry.addPhyLink
      rw [dif_neg hknown]
    refine ⟨by rw [hdevices, hlist, h.devices], ?_⟩
    rw [hkeys, hlist]
    exact (List.perm_orderedInsert _ cid _).trans
      ((h.keys.cons cid).trans (List.perm_append_singleton cid _).symm)

theorem registered_registry (order : List Cid) : (registered order).Registry := by
  induction order using List.reverseRecOn with
  | nil => exact ⟨rfl, List.Perm.nil⟩
  | append_singleton order cid ih =>
    unfold registered at ih ⊢
    rw [List.foldl_append]
    exact ih.addPhyLink cid

theorem registered_cidList (order : List Cid) :
    (registered order).linkState.cidList = order.eraseDups := by
  induction order using List.reverseRecOn with
  | nil => rfl
  | append_singleton order cid ih =>
    have hreg := registered_registry order
    have hmem : cid ∈ (registered order).linkParamsMap.list ↔ cid ∈ order := by
      rw [hreg.keys.mem_iff, ih, List.mem_eraseDups]
    have happend : registered (order ++ [cid]) = (registered order).addPhyLink cid := by
      unfold registered
      rw [List.foldl_append]
      rfl
    rw [happend, List.eraseDups_append]
    by_cases hknown : cid ∈ order
    · have hsame : (registered order).addPhyLink cid = registered order := by
        unfold LinkRegistry.addPhyLink
        rw [dif_pos (hmem.mpr hknown)]
      rw [hsame, ih]
      simp [List.removeAll, hknown]
    · have hone : [cid].eraseDups = [cid] := rfl
      rw [addPhyLink_cidList (mt hmem.mp hknown), ih]
      simp [List.removeAll, hknown, hone]

end Registration
end LinkRegistry

namespace GmaTxControl

/-- What a sender makes of the entry of a link: its packets in any burst, or whether the link is
used when one packet is a burst. -/
structure Sends (t : GmaTxControl) (l : ℕ) (cid : Cid) (k : ℕ) : Prop where
  split : l ≠ 1 → ∀ before, ∃ sent t₁ cids t₂, t.transmit before = .ok (sent, t₁) ∧
    t₁.transmit l = .ok (cids, t₂) ∧ cids.count cid = k
  steer : l = 1 → (cid ∈ t.cidVector ∨ cid ∈ t.cidDupVector ↔ k ≠ 0)

section Sender
variable {t t' : GmaTxControl} {inorder cidList : List Cid} {debug : Bool}
  {mxHeader : MxControlHeader}

theorem mem_steerLinks (v : List Cid × List Cid) (c : Cid) :
    c ∈ (inorder.foldl steerLink v).1 ∨ c ∈ (inorder.foldl steerLink v).2 ↔
      (c ∈ v.1 ∨ c ∈ v.2) ∨ c ∈ inorder := by
  induction inorder generalizing v with
  | nil => simp
  | cons cid inorder ih =>
    have hstep : c ∈ (steerLink v cid).1 ∨ c ∈ (steerLink v cid).2 ↔
        (c ∈ v.1 ∨ c ∈ v.2) ∨ c = cid := by
      obtain ⟨primary, dups⟩ := v
      cases primary with
      | nil => simp [steerLink, or_comm]
      | cons first rest =>
        by_cases hcid : cid = first
        · simp only [steerLink, hcid, ne_eq, not_true_eq_false, if_false, List.mem_cons]
          tauto
        · simp only [steerLink, ne_eq, hcid, not_false_eq_true, if_true, List.mem_cons,
            List.mem_append, List.not_mem_nil, or_false]
          tauto
    rw [List.foldl_cons, ih, hstep, List.mem_cons, or_assoc]

theorem steerMode_mem (h : t.steerMode inorder = .ok t') (c : Cid) :
    c ∈ t'.cidVector ∨ c ∈ t'.cidDupVector ↔ c ∈ inorder := by
  unfold steerMode at h
  split at h
  · cases h
    exact (mem_steerLinks _ c).trans (by simp)
  · cases h
    refine (mem_steerLinks _ c).trans ?_
    split_ifs with hkept
    · simp only [List.mem_singleton, List.not_mem_nil, or_false, or_iff_right_iff_imp]
      rintro rfl
      exact hkept
    · simp
  · cases h

theorem share_of_mem_zip {kVector : List ℕ} {p : Cid × ℕ} (hn : cidList.Nodup)
    (hp : p ∈ cidList.zip kVector) : share cidList kVector p.1 = p.2 := by
  obtain ⟨i, hi, rfl⟩ := List.getElem_of_mem hp
  rw [List.getElem_zip]
  rw [List.length_zip, lt_min_iff] at hi
  exact share_getElem hn hi.1 hi.2

theorem rcvCtrlMsg_sends (h : t.rcvCtrlMsg debug cidList mxHeader = .ok t')
    (hpos : mxHeader.l ≠ 0) (hn : cidList.Nodup) {p : Cid × ℕ}
    (hp : p ∈ cidList.zip mxHeader.kVector) : Sends t' mxHeader.l p.1 p.2 := by
  have hshare := share_of_mem_zip hn hp
  constructor
  · intro hsplit before
    obtain ⟨sent, t₁, cids, t₂, hbefore, hsent, hcount⟩ :=
      rcvCtrlMsg_rounds h hsplit hpos before
    exact ⟨sent, t₁, cids, t₂, hbefore, hsent, (hcount p.1).trans hshare⟩
  · intro hsteer
    obtain ⟨inorder, hcount, hmode⟩ := rcvCtrlMsg_ok h
    rw [if_neg (not_not.mpr hsteer)] at hmode
    rw [steerMode_mem hmode, ← hshare, ← hcount, ← List.count_pos_iff, Nat.pos_iff_ne_zero]

end Sender
end GmaTxControl

namespace LinkRegistry

/-- Messages and decisions for a vector concern the links whose own entry is not zero. -/
structure Addressed (s : LinkRegistry) : Prop where
  transmits : ∀ kVector : List ℕ, kVector.length = s.linkState.cidList.length →
    ∀ p ∈ s.linkState.cidList.zip kVector, p.1 ∈ s.tsuLinks kVector ↔ p.2 ≠ 0
  decides : ∀ kVector : List ℕ, kVector.length = s.linkState.cidList.length →
    ∀ rx, ∀ p ∈ s.linkState.cidList.zip kVector,
      (∃ d, (p.1, d) ∈ (s.rcvReverseTsu kVector rx).2) ↔ p.2 ≠ 0

structure IndexedAlike (s peer : LinkRegistry) : Prop where
  measured : ∀ i (hi : i < s.linkState.cidList.length),
    s.deviceList[i]? = some s.linkState.cidList[i] ∧
      GmaRxControl.indexOf s.linkState s.linkState.cidList[i] = i
  /-- What an action gives a link is its entry in the decision. -/
  action : ∀ burstPerLink rx rx' d, GmaRxControl.rlDecision s.linkState
      (s.splitWeightAction burstPerLink) rx = .ok (rx', d) →
    ∀ p ∈ (s.splitWeightAction burstPerLink).cidList.zip
        (s.splitWeightAction burstPerLink).ratio,
      p ∈ s.linkState.cidList.zip d.splitIndexList
  /-- The sender takes every vector for its own links. -/
  sender : ∀ debug (mxHeader : MxControlHeader) (t t' : GmaTxControl), mxHeader.l ≠ 0 →
    t.rcvCtrlMsg debug peer.linkState.cidList mxHeader = .ok t' →
      ∀ p ∈ s.linkState.cidList.zip mxHeader.kVector, t'.Sends mxHeader.l p.1 p.2
  addressed : s.Addressed
  peerAddressed : peer.Addressed

section Indices
variable {s peer : LinkRegistry} {kVector : List ℕ}

theorem rcvReverseTsu_links (s : LinkRegistry) (kVector : List ℕ) (rx : GmaRxControl) :
    (s.rcvReverseTsu kVector rx).2.map Prod.fst = s.tsuLinks kVector := by
  have hfold : ∀ (pairs : List (Cid × ℕ)) (v : GmaRxControl × List (Cid × SplittingDecision)),
      (pairs.foldl (fun v p =>
        let (rx, d) := GmaRxControl.generateTrafficSplittingDecision s.linkState v.1 p.1 false
        (rx, v.2 ++ [(p.1, d)])) v).2.map Prod.fst = v.2.map Prod.fst ++ pairs.map Prod.fst := by
    intro pairs
    induction pairs with
    | nil => simp
    | cons p pairs ih =>
      intro v
      rw [List.foldl_cons, ih]
      simp
  exact hfold _ (rx, [])

theorem decides_iff_transmits (rx : GmaRxControl) (cid : Cid) :
    (∃ d, (cid, d) ∈ (s.rcvReverseTsu kVector rx).2) ↔ cid ∈ s.tsuLinks kVector := by
  rw [← rcvReverseTsu_links s kVector rx, List.mem_map]
  constructor
  · rintro ⟨d, hd⟩
    exact ⟨_, hd, rfl⟩
  · rintro ⟨⟨c, d⟩, hd, rfl⟩
    exact ⟨d, hd⟩

theorem mem_tsuLinks {cid : Cid} : cid ∈ s.tsuLinks kVector ↔
    ∃ k ≠ 0, (cid, k) ∈ s.linkParamsMap.list.zip kVector := by
  simp [tsuLinks, Endpoint.linkTargets, and_comm]

theorem keys_eq (h : s.Registry) (hinc : s.linkState.cidList.Pairwise (· < ·)) :
    s.linkParamsMap.list = s.linkState.cidList :=
  h.keys.eq_of_pairwise (fun _ _ _ _ hlt hlt' => absurd hlt' (lt_asymm hlt))
    s.linkParamsMap.sorted hinc

theorem addressed_of_keys (h : s.Registry) (hkeys : s.linkParamsMap.list = s.linkState.cidList) :
    s.Addressed := by
  have htransmits : ∀ kVector : List ℕ, ∀ p ∈ s.linkState.cidList.zip kVector,
      p.1 ∈ s.tsuLinks kVector ↔ p.2 ≠ 0 := by
    intro kVector p hp
    rw [mem_tsuLinks, hkeys]
    constructor
    · rintro ⟨k, hk, hmem⟩
      have hshare := GmaTxControl.share_of_mem_zip h.nodup hmem
      exact (GmaTxControl.share_of_mem_zip h.nodup hp).symm.trans hshare ▸ hk
    · exact fun hne => ⟨p.2, hne, hp⟩
  refine ⟨fun kVector _ => htransmits kVector, fun kVector _ rx p hp => ?_⟩
  rw [decides_iff_transmits]
  exact htransmits kVector p hp

/-- The vector that has a share for one link only tells the position of that link. -/
theorem Addressed.keys (ha : s.Addressed) (h : s.Registry) :
    s.linkParamsMap.list = s.linkState.cidList := by
  refine List.ext_getElem h.keys.length_eq fun i hi hi' => ?_
  have hlen : ((List.replicate s.linkState.cidList.length 0).set i 1).length =
      s.linkState.cidList.length := by simp
  have hp : (s.linkState.cidList[i], 1) ∈ s.linkState.cidList.zip
      ((List.replicate s.linkState.cidList.length 0).set i 1) := by
    refine List.mem_iff_getElem.mpr ⟨i, by simpa using hi', ?_⟩
    rw [List.getElem_zip, List.getElem_set_self]
  obtain ⟨k, hk, hmem⟩ := mem_tsuLinks.mp ((ha.transmits _ hlen _ hp).mpr one_ne_zero)
  obtain ⟨j, hj, heq⟩ := List.getElem_of_mem hmem
  rw [List.getElem_zip, Prod.mk.injEq, List.getElem_set] at heq
  obtain rfl : i = j := by
    by_contra hne
    rw [if_neg hne, List.getElem_replicate] at heq
    exact hk heq.2.symm
  exact heq.1

theorem addressed_iff (h : s.Registry) :
    s.Addressed ↔ s.linkState.cidList.Pairwise (· < ·) := by
  constructor
  · intro ha
    rw [← ha.keys h]
    exact s.linkParamsMap.sorted
  · exact fun hinc => addressed_of_keys h (keys_eq h hinc)

/-- The first action is taken over in the order of the map, a later one link by link. -/
theorem splitWeightAction_entries (h : s.Registry)
    (hkeys : s.linkParamsMap.list = s.linkState.cidList) {burstPerLink : List ℕ}
    {rx rx' : GmaRxControl} {d : SplittingDecision}
    (hd : GmaRxControl.rlDecision s.linkState (s.splitWeightAction burstPerLink) rx =
      .ok (rx', d))
    {p : Cid × ℕ} (hp : p ∈ (s.splitWeightAction burstPerLink).cidList.zip
      (s.splitWeightAction burstPerLink).ratio) :
    p ∈ s.linkState.cidList.zip d.splitIndexList := by
  set action := s.splitWeightAction burstPerLink with haction
  have hcids : action.cidList = s.linkState.cidList := hkeys
  simp only [GmaRxControl.rlDecision] at hd
  split_ifs at hd with hzero hsizes
  rw [not_or, not_not, not_not] at hsizes
  have hlen : action.ratio.length = action.cidList.length := hsizes.2.trans hsizes.1.symm
  simp only [bind_eq_ok] at hd
  obtain ⟨⟨t₁, collected, update⟩, hturns, sum, -, t₂, -, heq⟩ := hd
  cases pure_eq_ok.mp heq
  by_cases hempty : rx.lastSplittingIndexList = []
  · have hmem : ∀ q ∈ action.cidList.zip action.ratio, q.1 ∈ s.linkState.cidList :=
      fun q hq => hcids ▸ (List.of_mem_zip hq).1
    obtain ⟨rfl, hcollected⟩ := GmaRxControl.rlTurns_collect hempty h.nodup hmem hturns
    rw [List.nil_append, List.map_snd_zip hlen.le] at hcollected
    simp only [if_pos hempty, hcollected]
    exact hcids ▸ hp
  · obtain ⟨-, hlen₁, hset, -⟩ := GmaRxControl.rlTurns_set hempty
      (GmaRxControl.zip_indexOf_ne h.nodup (List.Perm.of_eq hcids) hlen) hturns
    have hne : t₁.lastSplittingIndexList ≠ [] := by
      intro hnil
      rw [hnil, List.length_nil] at hlen₁
      exact hempty (List.eq_nil_of_length_eq_zero hlen₁.symm)
    simp only [if_neg hne]
    obtain ⟨i, hi, hcid⟩ := List.getElem_of_mem (hcids ▸ (List.of_mem_zip hp).1)
    have hentry := hset p hp
    rw [← hcid, GmaRxControl.indexOf_getElem h.nodup hi] at hentry
    obtain ⟨hlt, hval⟩ := List.getElem?_eq_some_iff.mp hentry
    refine List.mem_iff_getElem.mpr ⟨i, by simpa using ⟨hi, hlt⟩, ?_⟩
    rw [List.getElem_zip, hcid, hval]

end Indices

section Claim
variable {order peerOrder : List Cid}

/-- Whatever the links, the components agree on them exactly when either end registered the ids
in increasing order. -/
theorem indexed_alike_iff (order peerOrder : List Cid)
    (hsame : ∀ cid, cid ∈ order ↔ cid ∈ peerOrder) :
    IndexedAlike (registered order) (registered peerOrder) ↔
      order.eraseDups.Pairwise (· < ·) ∧ peerOrder.eraseDups.Pairwise (· < ·) := by
  have hreg := registered_registry order
  have hpeer := registered_registry peerOrder
  rw [← registered_cidList order, ← registered_cidList peerOrder]
  constructor
  · exact fun h => ⟨(addressed_iff hreg).mp h.addressed, (addressed_iff hpeer).mp h.peerAddressed⟩
  · rintro ⟨hinc, hpeerInc⟩
    have hkeys := keys_eq hreg hinc
    have hlists : (registered peerOrder).linkState.cidList =
        (registered order).linkState.cidList := by
      refine List.Perm.eq_of_pairwise (fun _ _ _ _ hlt hlt' => absurd hlt' (lt_asymm hlt))
        hpeerInc hinc ((List.perm_ext_iff_of_nodup hpeer.nodup hreg.nodup).mpr fun cid => ?_)
      rw [registered_cidList, registered_cidList, List.mem_eraseDups, List.mem_eraseDups, hsame]
    refine ⟨fun i hi => ⟨?_, GmaRxControl.indexOf_getElem hreg.nodup hi⟩, ?_, ?_,
      (addressed_iff hreg).mpr hinc, (addressed_iff hpeer).mpr hpeerInc⟩
    · rw [hreg.devices]
      exact List.getElem?_eq_getElem hi
    · exact fun _ _ _ _ hd _ hp => splitWeightAction_entries hreg hkeys hd hp
    · intro debug mxHeader t t' hpos hacc p hp
      rw [hlists] at hacc
      exact GmaTxControl.rcvCtrlMsg_sends hacc hpos hreg.nodup hp

theorem indexed_alike_in_order : IndexedAlike (registered [0, 3]) (registered [0, 0, 3]) :=
  (indexed_alike_iff [0, 3] [0, 0, 3] (by simp)).mpr (by decide)

/-- Link 3 is registered before link 0, at both ends. A TSU that steers to link 3 goes out over
link 0, and the ratios of an action change places. -/
theorem links_swapped :
    (registered [3, 0]).linkState.cidList = [3, 0] ∧
    (registered [3, 0]).tsuLinks [1, 0] = [0] ∧
    (registered [3, 0]).splitWeightAction [100, 28] = ⟨2, [0, 3], [100, 28]⟩ ∧
    (∃ rx, GmaRxControl.rlDecision (registered [3, 0]).linkState ⟨2, [0, 3], [100, 28]⟩ {} =
      .ok (rx, { update := true, splitIndexList := [100, 28] })) ∧
    GmaTxControl.share [3, 0] [100, 28] 3 = 100 ∧
    ¬ IndexedAlike (registered [3, 0]) (registered [3, 0]) := by
  refine ⟨by decide, by decide, by decide, ⟨_, rfl⟩, by decide, fun h => ?_⟩
  have htransmits := h.addressed.transmits [1, 0] (by decide) (3, 1) (by decide)
  exact absurd (htransmits.mpr one_ne_zero) (by decide)

end Claim
end LinkRegistry
end NetGymSim.Gma

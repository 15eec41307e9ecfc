import NetGymSim.Gma.BurstSchedule
import NetGymSim.Lib.ExceptFold
import NetGymSim.Lib.Machine
import Mathlib.Data.List.Nodup

/-!
# The links of a packet

`Transmit` sends a packet over the link that the splitting algorithm chooses, and copies of it over
the links of the duplicate list. TSUs write that list in steer mode, and the tests of a backup link
edit it whenever they start and stop.
-/

namespace NetGymSim.Gma
open NetGymSim.Lib

inductive TransmitFault
  | txControl (e : TxFault) | testingRunning | noTsuReceived
  deriving DecidableEq, Repr

inductive GmaTxAlgorithm
  | rxSide | defaultLink
  deriving DecidableEq, Repr

/-- What `Transmit` reads of the links: `linkParams` are the keys of `m_linkParamsMap`, and a link
is skipped while its queueing delay is high. -/
structure TxLinks where
  algorithm : GmaTxAlgorithm := .rxSide
  duplicateMode : Bool := false
  linkState : LinkState
  linkParams : List Cid
  linkParams_nodup : linkParams.Nodup
  lowQueueingDelay : Cid → Bool := fun _ => true

namespace GmaTxControl

def getDeliveryLinkCid (algorithm : GmaTxAlgorithm) (s : LinkState) (t : GmaTxControl) :
    Except TxFault (Cid × GmaTxControl) :=
  match algorithm with
  | .rxSide => t.rxSideAlgorithm s
  | .defaultLink => .ok (s.defaultLinkCid, t)

def startQosTesting (cid : Cid) (t : GmaTxControl) : Except TransmitFault GmaTxControl :=
  if t.cidDupVector = [] then .ok { t with cidDupVector := [cid] } else .error .testingRunning

def stopQosTesting (cid : Cid) (t : GmaTxControl) : GmaTxControl :=
  { t with cidDupVector := t.cidDupVector.filter (· ≠ cid) }

end GmaTxControl

namespace TxLinks
variable (x : TxLinks)

def upLinks : List Cid := x.linkParams.filter x.linkState.isLinkUp

def Usable (cid : Cid) : Prop := cid ∈ x.linkParams ∧ x.linkState.isLinkUp cid

instance (cid : Cid) : Decidable (x.Usable cid) :=
  inferInstanceAs (Decidable (_ ∧ _))

def deliveryLink (t : GmaTxControl) : Except TransmitFault (Cid × GmaTxControl) :=
  (t.getDeliveryLinkCid x.algorithm x.linkState).mapError .txControl

def nextLink (low : Cid → Bool) : ℕ → GmaTxControl →
    Except TransmitFault (Option Cid × GmaTxControl)
  | 0, t => .ok (none, t)
  | steps + 1, t =>
      match t.getNextCidFromTsu with
      | .error e => .error (.txControl e)
      | .ok (cid, t') =>
          if cid = uint8Max then .error .noTsuReceived
          else if x.linkState.isLinkUp cid ∧ low cid then .ok (some cid, t')
          else nextLink low steps t'

/-- When every link that is up has a high delay, skipping stops. -/
def splitLink (t : GmaTxControl) : Except TransmitFault (Cid × GmaTxControl) :=
  if x.upLinks = [] then .ok (x.linkState.defaultLinkCid, t)
  else do
    let low := if x.upLinks.any x.lowQueueingDelay then x.lowQueueingDelay else fun _ => true
    let (linkFound, t) ← x.nextLink low t.paramL t
    match linkFound with
    | some cid => return (cid, t)
    | none => x.deliveryLink t

def link (t : GmaTxControl) : Except TransmitFault (Cid × GmaTxControl) :=
  if t.paramL = 1 then x.deliveryLink t
  else if t.paramL > 1 then x.splitLink t
  else .ok (x.linkState.defaultLinkCid, t)

def transmit (t : GmaTxControl) : Except TransmitFault (List Cid × GmaTxControl) :=
  if x.duplicateMode then .ok (x.upLinks, t)
  else do
    let (cid, t) ← x.link t
    if cid ∈ x.linkParams then return (cid :: t.cidDupVector.filter x.Usable, t)
    else return ([], t)

end TxLinks

structure PacketSender where
  control : GmaTxControl := {}
  sent : List Cid := []
  deriving DecidableEq, Repr

inductive SenderEvent
  | rcvCtrlMsg (cidList : List Cid) (mxHeader : MxControlHeader)
  | startQosTesting (cid : Cid)
  | stopQosTesting (cid : Cid)
  | transmit (x : TxLinks)

namespace PacketSender

/-- The end of a test is an event of its own: its timer is not stopped by anything. -/
def step (debug : Bool) (s : PacketSender) : SenderEvent → Except TransmitFault PacketSender
  | .rcvCtrlMsg cidList mxHeader => do
      let control ← (s.control.rcvCtrlMsg debug cidList mxHeader).mapError .txControl
      return { control }
  | .startQosTesting cid => do
      let control ← s.control.startQosTesting cid
      return { control }
  | .stopQosTesting cid => return { control := s.control.stopQosTesting cid }
  | .transmit x => do
      let (sent, control) ← x.transmit s.control
      return { control, sent }

def machine (debug : Bool) : Machine PacketSender SenderEvent where
  enabled s e := (s.step debug e).isOk
  next s e := (s.step debug e).toOption.getD s

instance (debug : Bool) (s : PacketSender) (e : SenderEvent) :
    Decidable ((machine debug).enabled s e) :=
  inferInstanceAs (Decidable ((s.step debug e).isOk = true))

end PacketSender
end NetGymSim.Gma

/-!
## Primary links and duplicates

A TSU for steer mode leaves the primary link out of the duplicates, but a test does not look at the
primary link, and the default link takes the place of a primary link that is down. A run sends no
packet twice over one link just when neither meets a link of the other list.
-/

namespace NetGymSim.Gma
open NetGymSim.Lib GmaTxControl

namespace GmaTxControl

/-- The link that is the primary one after a TSU: the present one if the TSU gives it a share, or
else the first with a share. -/
def primaryAfter (cidList : List Cid) (kVector : List ℕ) (t : GmaTxControl) : Option Cid :=
  match t.cidVector with
  | primary :: _ => if 0 < share cidList kVector primary then some primary else firstUsed
  | [] => firstUsed
where
  firstUsed : Option Cid := ((cidList.zip kVector).find? fun p => 0 < p.2).map Prod.fst

section Tsu
variable {cidList : List Cid} {kVector : List ℕ} {inorder : List Cid} {t t' : GmaTxControl}

theorem head_inorder (h : inorderCidVector cidList kVector = .ok inorder) :
    inorder.head? = primaryAfter.firstUsed cidList kVector := by
  unfold inorderCidVector at h
  split_ifs at h with hr
  cases h
  rw [inorder_eq cidList kVector 0 hr, List.drop_zero, primaryAfter.firstUsed]
  induction cidList.zip kVector with
  | nil => rfl
  | cons p rest ih =>
    rw [List.flatMap_cons, List.find?_cons]
    by_cases hp : 0 < p.2
    · obtain ⟨k, hk⟩ := Nat.exists_eq_succ_of_ne_zero hp.ne'
      simp [hk, List.replicate_succ]
    · have hzero : p.2 = 0 := Nat.eq_zero_of_not_pos hp
      simp [hzero, ih]

theorem foldl_steerLink_cons (primary : Cid) (rest dup : List Cid) :
    inorder.foldl steerLink (primary :: rest, dup) =
      (primary :: rest, dup ++ inorder.filter (· ≠ primary)) := by
  induction inorder generalizing dup with
  | nil => simp
  | cons c inorder ih =>
    rw [List.foldl_cons]
    by_cases hc : c = primary
    · simp [steerLink, hc, ih]
    · simp [steerLink, hc, ih]

theorem foldl_steerLink_nil :
    inorder.foldl steerLink ([], []) =
      (inorder.head?.toList, inorder.filter fun c => inorder.head? ≠ some c) := by
  cases inorder with
  | nil => rfl
  | cons primary inorder =>
    rw [List.foldl_cons]
    show inorder.foldl steerLink ([primary], []) = _
    rw [foldl_steerLink_cons]
    simp [eq_comm]

def others (cidList : List Cid) (kVector : List ℕ) (inorder : List Cid) (t : GmaTxControl) :
    List Cid :=
  inorder.filter fun cid => primaryAfter cidList kVector t ≠ some cid

theorem steerMode_eq_ok (h : inorderCidVector cidList kVector = .ok inorder)
    (hok : t.steerMode inorder = .ok t') :
    t' = { cidVector := (primaryAfter cidList kVector t).toList
           cidDupVector := others cidList kVector inorder t
           paramL := 1
           splittingIndex := 0 } := by
  have hfirst := head_inorder h
  unfold steerMode at hok
  unfold others
  rcases hv : t.cidVector with _ | ⟨primary, _ | ⟨second, rest⟩⟩
  · simp only [hv, foldl_steerLink_nil, hfirst] at hok
    simp only [primaryAfter, hv]
    exact (Except.ok.inj hok).symm
  · have hmem : primary ∈ inorder ↔ 0 < share cidList kVector primary := by
      rw [← count_inorder h, List.count_pos_iff]
    simp only [hv, hmem] at hok
    simp only [primaryAfter, hv]
    split_ifs at hok ⊢ with hshare
    · simp only [foldl_steerLink_cons, List.nil_append] at hok
      rw [← Except.ok.inj hok]
      simp [eq_comm]
    · simp only [foldl_steerLink_nil, hfirst] at hok
      exact (Except.ok.inj hok).symm
  · simp only [hv] at hok
    cases hok

theorem others_nodup_iff (h : inorderCidVector cidList kVector = .ok inorder) :
    (others cidList kVector inorder t).Nodup ↔
      ∀ cid, primaryAfter cidList kVector t ≠ some cid → share cidList kVector cid ≤ 1 := by
  rw [List.nodup_iff_count_le_one]
  refine forall_congr' fun cid => ?_
  by_cases hcid : primaryAfter cidList kVector t = some cid
  · have hnone : (others cidList kVector inorder t).count cid = 0 := by
      rw [List.count_eq_zero]
      exact fun hmem => of_decide_eq_true (List.mem_filter.mp hmem).2 hcid
    simp [hnone, hcid]
  · rw [others, List.count_filter (by simpa using hcid), count_inorder h]
    simp [hcid]

theorem primary_disjoint_others :
    List.Disjoint (primaryAfter cidList kVector t).toList (others cidList kVector inorder t) := by
  intro cid hprimary hother
  exact of_decide_eq_true (List.mem_filter.mp hother).2 (Option.mem_toList.mp hprimary)

theorem rcvCtrlMsg_eq_ok {debug : Bool} {mxHeader : MxControlHeader}
    (hok : t.rcvCtrlMsg debug cidList mxHeader = .ok t') :
    ∃ inorder, inorderCidVector cidList mxHeader.kVector = .ok inorder ∧
      (if mxHeader.l ≠ 1 then t.splitMode debug mxHeader.l inorder else t.steerMode inorder) =
        .ok t' := by
  unfold rcvCtrlMsg at hok
  split at hok
  · cases hok
  · split at hok
    · cases hok
    · split at hok
      · cases hok
      · exact ⟨_, ‹_›, hok⟩

theorem splitMode_eq_ok {debug : Bool} {l : ℕ} (hl : l ≠ 1)
    (hok : t.splitMode debug l inorder = .ok t') :
    t'.cidDupVector = t.cidDupVector ∧ (t'.paramL ≤ 1 → t'.cidVector = []) := by
  unfold splitMode at hok
  split at hok
  · cases hok
  · split at hok
    · split_ifs at hok
      cases hok
      exact ⟨rfl, fun _ => rfl⟩
    · rename_i table htable
      have hsize : 1 < l := by
        have hpos := (reverseBitsIndex_perm htable).2.1
        omega
      split at hok
      · cases hok
      · split_ifs at hok
        cases hok
        exact ⟨rfl, fun hle => absurd hle hsize.not_ge⟩

end Tsu

section Delivery
variable {t t' : GmaTxControl} {cid : Cid}

structure SameLists (t t' : GmaTxControl) : Prop where
  cidVector : t'.cidVector = t.cidVector
  cidDupVector : t'.cidDupVector = t.cidDupVector
  paramL : t'.paramL = t.paramL

theorem SameLists.refl (t : GmaTxControl) : SameLists t t := ⟨rfl, rfl, rfl⟩

theorem SameLists.trans {t₁ t₂ t₃ : GmaTxControl} (h : SameLists t₁ t₂) (h' : SameLists t₂ t₃) :
    SameLists t₁ t₃ :=
  ⟨h'.cidVector.trans h.cidVector, h'.cidDupVector.trans h.cidDupVector,
    h'.paramL.trans h.paramL⟩

theorem getNextCidFromTsu_keeps (h : t.getNextCidFromTsu = .ok (cid, t')) : SameLists t t' := by
  unfold getNextCidFromTsu at h
  split_ifs at h
  · cases h
    exact .refl t
  · split at h
    · cases h
    · cases h
      exact ⟨rfl, rfl, rfl⟩

theorem getNextCidFromTsu_mem (h : t.getNextCidFromTsu = .ok (cid, t')) (hne : t.cidVector ≠ []) :
    cid ∈ t.cidVector := by
  unfold getNextCidFromTsu at h
  rw [if_neg hne] at h
  split at h
  · cases h
  · rename_i connectionId hget
    cases h
    exact List.mem_of_getElem? hget

theorem rxSideAlgorithm_eq_ok {s : LinkState} (h : t.rxSideAlgorithm s = .ok (cid, t')) :
    SameLists t t' ∧ ((t.cidVector = [] ∧ cid = s.defaultLinkCid) ∨
      ∃ c ∈ t.cidVector, cid = if s.isLinkUp c then c else s.defaultLinkCid) := by
  unfold rxSideAlgorithm at h
  split_ifs at h with hnil
  · cases h
    exact ⟨.refl t, .inl ⟨hnil, rfl⟩⟩
  · split at h
    · cases h
    · rename_i hnext
      cases h
      exact ⟨getNextCidFromTsu_keeps hnext, .inr ⟨_, getNextCidFromTsu_mem hnext hnil, rfl⟩⟩

theorem getDeliveryLinkCid_eq_ok {algorithm : GmaTxAlgorithm} {s : LinkState}
    (h : t.getDeliveryLinkCid algorithm s = .ok (cid, t')) :
    SameLists t t' ∧ ((algorithm = .rxSide ∧ cid ∈ t.cidVector ∧ s.isLinkUp cid) ∨
      cid = s.defaultLinkCid ∧ (algorithm = .rxSide →
        ∀ primary : Option Cid, t.cidVector = primary.toList →
          ∀ c ∈ t.cidVector, ¬ s.isLinkUp c)) := by
  cases algorithm with
  | defaultLink =>
    cases h
    exact ⟨.refl t, .inr ⟨rfl, fun h => absurd h (by decide)⟩⟩
  | rxSide =>
    obtain ⟨hkeep, hlink⟩ := rxSideAlgorithm_eq_ok h
    refine ⟨hkeep, ?_⟩
    rcases hlink with ⟨hnil, hcid⟩ | ⟨c, hc, hcid⟩
    · exact .inr ⟨hcid, fun _ _ _ c hc => absurd hc (by simp [hnil])⟩
    · split_ifs at hcid with hup
      · exact .inl ⟨rfl, hcid ▸ hc, hcid ▸ hup⟩
      · refine .inr ⟨hcid, fun _ primary hprimary c' hc' => ?_⟩
        rw [hprimary, Option.mem_toList] at hc hc'
        obtain rfl : c = c' := Option.mem_unique hc hc'
        exact hup

end Delivery
end GmaTxControl

namespace TxLinks
variable {x : TxLinks} {t t' : GmaTxControl} {cid : Cid}

def PrimaryInUse (x : TxLinks) (t : GmaTxControl) : Prop :=
  x.algorithm = .rxSide ∧ t.paramL = 1 ∧ ∃ primary ∈ t.cidVector, x.linkState.isLinkUp primary

section Keeps

theorem deliveryLink_keeps (h : x.deliveryLink t = .ok (cid, t')) : SameLists t t' :=
  (getDeliveryLinkCid_eq_ok (mapError_eq_ok.mp h)).1

theorem nextLink_keeps {low : Cid → Bool} {steps : ℕ} {found : Option Cid}
    (h : x.nextLink low steps t = .ok (found, t')) : SameLists t t' := by
  induction steps generalizing t with
  | zero =>
    cases h
    exact .refl _
  | succ steps ih =>
    unfold nextLink at h
    split at h
    · cases h
    · rename_i next t₁ hnext
      have hkeep := getNextCidFromTsu_keeps hnext
      split_ifs at h with hnone hfound
      · cases h
        exact hkeep
      · exact hkeep.trans (ih h)

theorem splitLink_keeps (h : x.splitLink t = .ok (cid, t')) : SameLists t t' := by
  unfold splitLink at h
  split at h
  · cases h
    exact .refl t
  · obtain ⟨⟨found, t₁⟩, hnext, h⟩ := bind_eq_ok.mp h
    have hkeep := nextLink_keeps hnext
    cases found with
    | some c =>
      cases pure_eq_ok.mp h
      exact hkeep
    | none => exact hkeep.trans (deliveryLink_keeps h)

theorem link_keeps (h : x.link t = .ok (cid, t')) : SameLists t t' := by
  unfold link at h
  split_ifs at h
  · exact deliveryLink_keeps h
  · exact splitLink_keeps h
  · cases h
    exact .refl t

theorem transmit_keeps {sent : List Cid} (h : x.transmit t = .ok (sent, t')) :
    SameLists t t' := by
  unfold transmit at h
  split at h
  · cases h
    exact .refl t
  · obtain ⟨⟨c, t₁⟩, hlink, h⟩ := bind_eq_ok.mp h
    have hkeep := link_keeps hlink
    simp only at h
    split_ifs at h
    · cases pure_eq_ok.mp h
      exact hkeep
    · cases pure_eq_ok.mp h
      exact hkeep

end Keeps

theorem link_steer {primary : Option Cid} (hl : t.paramL ≤ 1)
    (hprimary : t.cidVector = primary.toList) (h : x.link t = .ok (cid, t')) :
    (x.PrimaryInUse t ∧ cid ∈ t.cidVector) ∨
      ¬ x.PrimaryInUse t ∧ cid = x.linkState.defaultLinkCid := by
  unfold link at h
  split_ifs at h with hone hmany
  · rcases (getDeliveryLinkCid_eq_ok (mapError_eq_ok.mp h)).2 with
      ⟨hrx, hmem, hup⟩ | ⟨hdefault, hdown⟩
    · exact .inl ⟨⟨hrx, hone, cid, hmem, hup⟩, hmem⟩
    · refine .inr ⟨fun hin => ?_, hdefault⟩
      obtain ⟨hrx, -, c, hc, hup⟩ := hin
      exact hdown hrx primary hprimary c hc hup
  · omega
  · cases h
    exact .inr ⟨fun hin => hone hin.2.1, rfl⟩

/-- A packet meets no link twice just when the default link, in place of the primary one, is not
among the copies. -/
theorem transmit_nodup_iff {primary : Option Cid} {sent : List Cid} (hl : t.paramL ≤ 1)
    (hprimary : t.cidVector = primary.toList) (hdup : t.cidDupVector.Nodup)
    (hapart : List.Disjoint t.cidVector t.cidDupVector) (h : x.transmit t = .ok (sent, t')) :
    sent.Nodup ↔ (¬ x.duplicateMode → ¬ x.PrimaryInUse t →
      ¬ (x.linkState.defaultLinkCid ∈ t.cidDupVector ∧ x.Usable x.linkState.defaultLinkCid)) := by
  unfold transmit at h
  split at h
  · rename_i hmode
    cases h
    exact iff_of_true (x.linkParams_nodup.filter _) fun hnot => absurd hmode hnot
  · rename_i hmode
    obtain ⟨⟨c, t₁⟩, hlink, h⟩ := bind_eq_ok.mp h
    have hcases := link_steer hl hprimary hlink
    have hkeep := (link_keeps hlink).cidDupVector
    simp only at h
    split_ifs at h with hparam
    · cases pure_eq_ok.mp h
      rw [List.nodup_cons, hkeep, and_iff_left (hdup.filter _), List.mem_filter,
        decide_eq_true_iff]
      rcases hcases with ⟨hin, hmem⟩ | ⟨hnot, rfl⟩
      · exact iff_of_true (fun hcopy => hapart hmem hcopy.1) fun _ hnot => absurd hin hnot
      · exact ⟨fun h _ _ => h, fun h => h hmode hnot⟩
    · cases pure_eq_ok.mp h
      refine iff_of_true List.nodup_nil fun _ hnot => ?_
      rcases hcases with ⟨hin, -⟩ | ⟨-, rfl⟩
      · exact absurd hin hnot
      · exact fun hcopy => hparam hcopy.2.1

end TxLinks

namespace PacketSender
variable {debug : Bool} {s s' : PacketSender} {e : SenderEvent}

def OnePrimary (s : PacketSender) : Prop :=
  s.control.paramL ≤ 1 → ∃ primary : Option Cid, s.control.cidVector = primary.toList

/-- In steer mode no link is primary and a duplicate, and no packet is sent twice over one link. -/
structure Apart (s : PacketSender) : Prop where
  duplicates : s.control.cidDupVector.Nodup
  disjoint : s.control.paramL ≤ 1 → List.Disjoint s.control.cidVector s.control.cidDupVector
  sent : s.control.paramL ≤ 1 → s.sent.Nodup

def KeepsApart (s : PacketSender) : SenderEvent → Prop
  | .rcvCtrlMsg cidList mxHeader =>
      mxHeader.l = 1 → ∀ cid, primaryAfter cidList mxHeader.kVector s.control ≠ some cid →
        share cidList mxHeader.kVector cid ≤ 1
  | .startQosTesting cid => s.control.paramL ≤ 1 → cid ∉ s.control.cidVector
  | .stopQosTesting _ => True
  | .transmit x =>
      s.control.paramL ≤ 1 → ¬ x.duplicateMode → ¬ x.PrimaryInUse s.control →
        ¬ (x.linkState.defaultLinkCid ∈ s.control.cidDupVector ∧
          x.Usable x.linkState.defaultLinkCid)

theorem rcvCtrlMsg_onePrimary {cidList : List Cid} {mxHeader : MxControlHeader}
    {t t' : GmaTxControl} (h : t.rcvCtrlMsg debug cidList mxHeader = .ok t') (hl : t'.paramL ≤ 1) :
    ∃ primary : Option Cid, t'.cidVector = primary.toList := by
  obtain ⟨inorder, hinorder, h⟩ := rcvCtrlMsg_eq_ok h
  split_ifs at h with hsplit
  · exact ⟨none, (splitMode_eq_ok hsplit h).2 hl⟩
  · exact ⟨_, by rw [steerMode_eq_ok hinorder h]⟩

theorem rcvCtrlMsg_apart_iff {cidList : List Cid} {mxHeader : MxControlHeader} {t' : GmaTxControl}
    (hs : s.Apart) (h : s.control.rcvCtrlMsg debug cidList mxHeader = .ok t') :
    Apart { control := t' } ↔ s.KeepsApart (.rcvCtrlMsg cidList mxHeader) := by
  obtain ⟨inorder, hinorder, h⟩ := rcvCtrlMsg_eq_ok h
  split_ifs at h with hsplit
  · obtain ⟨hdup, hnil⟩ := splitMode_eq_ok hsplit h
    refine iff_of_true ⟨hdup ▸ hs.duplicates, fun hl => ?_, fun _ => List.nodup_nil⟩
      fun hl => absurd hl hsplit
    simp only [hnil hl, List.disjoint_nil_left]
  · have hl : mxHeader.l = 1 := not_not.mp hsplit
    rw [steerMode_eq_ok hinorder h]
    constructor
    · intro hapart _
      exact (others_nodup_iff hinorder).mp hapart.duplicates
    · intro hshare
      exact ⟨(others_nodup_iff hinorder).mpr (hshare hl), fun _ => primary_disjoint_others,
        fun _ => List.nodup_nil⟩

theorem startQosTesting_apart_iff {cid : Cid} {t' : GmaTxControl}
    (h : s.control.startQosTesting cid = .ok t') :
    Apart { control := t' } ↔ s.KeepsApart (.startQosTesting cid) := by
  unfold startQosTesting at h
  split_ifs at h
  cases h
  constructor
  · intro hapart hl hmem
    exact hapart.disjoint hl hmem List.mem_cons_self
  · intro hnot
    refine ⟨List.nodup_singleton cid, fun hl => ?_, fun _ => List.nodup_nil⟩
    exact List.disjoint_singleton.mpr (hnot hl)

theorem stopQosTesting_apart (hs : s.Apart) (cid : Cid) :
    Apart { control := s.control.stopQosTesting cid } where
  duplicates := hs.duplicates.filter _
  disjoint hl _ hmem hdup := hs.disjoint hl hmem (List.mem_filter.mp hdup).1
  sent _ := List.nodup_nil

theorem transmit_apart_iff {x : TxLinks} {sent : List Cid} {t' : GmaTxControl}
    (hone : s.OnePrimary) (hs : s.Apart) (h : x.transmit s.control = .ok (sent, t')) :
    Apart { control := t', sent } ↔ s.KeepsApart (.transmit x) := by
  have hkeep := TxLinks.transmit_keeps h
  have hlists (hl : s.control.paramL ≤ 1) :
      sent.Nodup ↔ s.KeepsApart (.transmit x) := by
    obtain ⟨primary, hprimary⟩ := hone hl
    rw [TxLinks.transmit_nodup_iff hl hprimary hs.duplicates (hs.disjoint hl) h]
    exact ⟨fun h _ => h, fun h => h hl⟩
  constructor
  · intro hapart hl
    exact (hlists hl).mp (hapart.sent (hkeep.paramL.le.trans hl)) hl
  · intro hkeeps
    refine ⟨?_, fun hl => ?_, fun hl => ?_⟩
    · exact hkeep.cidDupVector.symm ▸ hs.duplicates
    · simp only [hkeep.cidVector, hkeep.cidDupVector]
      exact hs.disjoint (hkeep.paramL.ge.trans hl)
    · exact (hlists (hkeep.paramL.ge.trans hl)).mpr hkeeps

section Runs

theorem enabled_iff : (machine debug).enabled s e ↔ ∃ s', s.step debug e = .ok s' := by
  show (s.step debug e).isOk = true ↔ _
  cases s.step debug e with
  | error f => simp [Except.isOk, Except.toBool]
  | ok s' => simp [Except.isOk, Except.toBool]

theorem next_eq (h : s.step debug e = .ok s') : (machine debug).next s e = s' := by
  show (s.step debug e).toOption.getD s = s'
  rw [h]
  rfl

theorem step_onePrimary (hs : s.OnePrimary) (h : s.step debug e = .ok s') : s'.OnePrimary := by
  cases e with
  | rcvCtrlMsg cidList mxHeader =>
    obtain ⟨t', ht, h⟩ := bind_eq_ok.mp h
    cases pure_eq_ok.mp h
    exact rcvCtrlMsg_onePrimary (mapError_eq_ok.mp ht)
  | startQosTesting cid =>
    obtain ⟨t', ht, h⟩ := bind_eq_ok.mp h
    cases pure_eq_ok.mp h
    unfold startQosTesting at ht
    split_ifs at ht
    cases ht
    exact hs
  | stopQosTesting cid =>
    cases pure_eq_ok.mp h
    exact hs
  | transmit x =>
    obtain ⟨⟨sent, t'⟩, ht, h⟩ := bind_eq_ok.mp h
    cases pure_eq_ok.mp h
    have hkeep := TxLinks.transmit_keeps ht
    intro hl
    obtain ⟨primary, hprimary⟩ := hs (hkeep.paramL.ge.trans hl)
    exact ⟨primary, hkeep.cidVector.trans hprimary⟩

theorem step_apart_iff (hone : s.OnePrimary) (hs : s.Apart) (h : s.step debug e = .ok s') :
    s'.Apart ↔ s.KeepsApart e := by
  cases e with
  | rcvCtrlMsg cidList mxHeader =>
    obtain ⟨t', ht, h⟩ := bind_eq_ok.mp h
    cases pure_eq_ok.mp h
    exact rcvCtrlMsg_apart_iff hs (mapError_eq_ok.mp ht)
  | startQosTesting cid =>
    obtain ⟨t', ht, h⟩ := bind_eq_ok.mp h
    cases pure_eq_ok.mp h
    exact startQosTesting_apart_iff ht
  | stopQosTesting cid =>
    cases pure_eq_ok.mp h
    exact iff_of_true (stopQosTesting_apart hs cid) trivial
  | transmit x =>
    obtain ⟨⟨sent, t'⟩, ht, h⟩ := bind_eq_ok.mp h
    cases pure_eq_ok.mp h
    exact transmit_apart_iff hone hs ht

/-- In every run the links stay apart as long as every event meets its condition, and no longer. -/
theorem run_apart_iff (debug : Bool) (events : List SenderEvent)
    (h : (machine debug).Permits {} events) :
    ((machine debug).restrict KeepsApart).Permits {} events ↔
      ∀ done, done <+: events → ((machine debug).exec {} done).Apart := by
  apply Machine.Permits.restrict_iff (Q := OnePrimary) _ _ _ _ h
  · intro s e hone hen
    obtain ⟨s', hs'⟩ := enabled_iff.mp hen
    rw [next_eq hs']
    exact step_onePrimary hone hs'
  · intro s e hone hs hen
    obtain ⟨s', hs'⟩ := enabled_iff.mp hen
    rw [next_eq hs']
    exact step_apart_iff hone hs hs'
  · exact fun _ => ⟨none, rfl⟩
  · exact ⟨List.nodup_nil, fun _ => List.disjoint_nil_left _, fun _ => List.nodup_nil⟩

def twoLinksUp : TxLinks where
  linkState := { cidList := [0, 1] }
  linkParams := [0, 1]
  linkParams_nodup := by decide

def steerTsu (kVector : List ℕ) : SenderEvent :=
  .rcvCtrlMsg [0, 1] { type := .tsu, kVector, l := 1 }

theorem run_apart_iff_backupTest :
    ((machine true).restrict KeepsApart).Permits {}
        [steerTsu [1, 0], .startQosTesting 1, .transmit twoLinksUp, .stopQosTesting 1] ↔
      ∀ done, done <+: [steerTsu [1, 0], .startQosTesting 1, .transmit twoLinksUp,
        .stopQosTesting 1] → ((machine true).exec {} done).Apart :=
  run_apart_iff true
    [steerTsu [1, 0], .startQosTesting 1, .transmit twoLinksUp, .stopQosTesting 1] (by decide)

def primaryTested : List SenderEvent :=
  [steerTsu [0, 1], .startQosTesting 1, .transmit twoLinksUp]

theorem primaryTested_not_apart :
    (machine true).Permits {} primaryTested ∧
      (machine true).exec {} primaryTested =
        { control := { cidVector := [1], cidDupVector := [1], paramL := 1, splittingIndex := 0 }
          sent := [1, 1] } ∧
      ¬ ((machine true).exec {} primaryTested).Apart := by
  refine ⟨by decide, by decide, fun hapart => ?_⟩
  have hsent : ((machine true).exec {} primaryTested).sent.Nodup := hapart.sent (by decide)
  exact absurd hsent (by decide)

end Runs
end PacketSender
end NetGymSim.Gma

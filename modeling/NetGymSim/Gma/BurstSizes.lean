import NetGymSim.Gma.BurstSums
import NetGymSim.Gma.BurstSchedule
import NetGymSim.Gma.RatioRuns

/-!
# Burst sizes of both sides

The receiver sends its burst and its shares in a TSU, and the sender asserts what it makes of
them. Assertions are compiled in on both sides. A measurement is of the registered links in
their order, as `AddPhyLink` gives each link its device, and an action names each registered
link once.
-/

namespace NetGymSim.Gma
open NetGymSim.Lib

namespace GmaTxControl

/-- No assertion on the burst, on the size of the vector or on the sum of the shares fails. The
one other fault is about the links in use before. -/
def Accepts (cidList : List Cid) (mxHeader : MxControlHeader) (t : GmaTxControl) : Prop :=
  ∀ fault, t.rcvCtrlMsg true cidList mxHeader = .error fault → fault = .twoPrimaryLinks

def Known (cidList : List Cid) (kVector : List ℕ) : Prop :=
  ∀ p ∈ kVector.zipIdx, p.1 ≠ 0 → p.2 < cidList.length

section Accepts
variable {debug : Bool} {l : ℕ} {inorder cidList : List Cid} {kVector : List ℕ}
  {t : GmaTxControl} {mxHeader : MxControlHeader}

theorem inorderCidVector_total (h : Known cidList kVector) :
    ∃ inorder, inorderCidVector cidList kVector = .ok inorder ∧ inorder.length = kVector.sum := by
  refine ⟨_, if_pos h, ?_⟩
  rw [List.length_flatMap]
  have hmap : (kVector.zipIdx.map fun p => (List.replicate p.1 (cidList.getD p.2 0)).length) =
      kVector.zipIdx.map Prod.fst :=
    List.map_congr_left fun p _ => List.length_replicate
  rw [hmap, List.zipIdx_map_fst]

theorem reverseBitsIndex_total (hl : l ∈ assertedBursts) (hone : l ≠ 1) :
    ∃ table, reverseBitsIndex l = some table := by
  simp only [assertedBursts, List.mem_cons, List.not_mem_nil, or_false] at hl
  rcases hl with rfl | rfl | rfl | rfl | rfl | rfl
  · exact absurd rfl hone
  all_goals exact ⟨_, rfl⟩

theorem splitMode_total (hl : l ∈ assertedBursts) (hone : l ≠ 1) (hlen : inorder.length = l) :
    ∃ t', t.splitMode debug l inorder = .ok t' := by
  obtain ⟨table, htable⟩ := reverseBitsIndex_total hl hone
  have hperm := (reverseBitsIndex_perm htable).1
  rw [← hlen] at hperm
  obtain ⟨cidVector, hreorder, hp⟩ := reorder_perm hperm
  unfold splitMode
  rw [if_neg (not_not.mpr hlen), htable]
  simp only [hreorder]
  rw [if_neg fun h => h.2 (hp.length_eq.trans hlen)]
  exact ⟨_, rfl⟩

theorem splitMode_fault {fault : TxFault} (h : t.splitMode debug l inorder = .error fault) :
    fault ≠ .outOfRange := by
  unfold splitMode at h
  by_cases hlen : inorder.length ≠ l
  · rw [if_pos hlen] at h
    cases h
    decide
  · rw [if_neg hlen] at h
    cases htable : reverseBitsIndex l with
    | none =>
      simp only [htable] at h
      split_ifs at h
      cases h
      decide
    | some table =>
      have hperm := (reverseBitsIndex_perm htable).1
      rw [← not_not.mp hlen] at hperm
      obtain ⟨cidVector, hreorder, -⟩ := reorder_perm hperm
      simp only [htable, hreorder] at h
      split_ifs at h
      cases h
      decide

theorem steerMode_fault {fault : TxFault} (h : t.steerMode inorder = .error fault) :
    fault = .twoPrimaryLinks := by
  unfold steerMode at h
  split at h
  · cases h
  · cases h
  · cases h
    rfl

theorem accepts_iff (htype : mxHeader.type = .tsu) : Accepts cidList mxHeader t ↔
    mxHeader.l ∈ assertedBursts ∧ Known cidList mxHeader.kVector ∧
      (mxHeader.l = 1 ∨ mxHeader.kVector.sum = mxHeader.l) := by
  unfold Accepts rcvCtrlMsg
  rw [if_neg (not_not.mpr htype)]
  by_cases hl : mxHeader.l ∈ assertedBursts
  · rw [if_neg fun h => h.2 hl]
    by_cases hknown : Known cidList mxHeader.kVector
    · obtain ⟨inorder, hinorder, hlen⟩ := inorderCidVector_total hknown
      simp only [hinorder]
      by_cases hone : mxHeader.l = 1
      · rw [if_neg (not_not.mpr hone)]
        exact iff_of_true (fun fault h => steerMode_fault h) ⟨hl, hknown, .inl hone⟩
      · rw [if_pos hone]
        by_cases hsum : inorder.length = mxHeader.l
        · obtain ⟨t', ht'⟩ : ∃ t', t.splitMode true mxHeader.l inorder = .ok t' :=
            splitMode_total hl hone hsum
          refine iff_of_true (fun fault h => ?_) ⟨hl, hknown, .inr (hlen.symm.trans hsum)⟩
          rw [ht'] at h
          cases h
        · refine iff_of_false (fun h => ?_) fun h => ?_
          · have hfault := h .duplicateInSplitMode (if_pos hsum)
            cases hfault
          · exact hsum (hlen.trans (h.2.2.resolve_left hone))
    · have herror : inorderCidVector cidList mxHeader.kVector = .error .outOfRange := if_neg hknown
      simp only [herror]
      refine iff_of_false (fun h => ?_) fun h => hknown h.2.1
      have hfault := h .outOfRange rfl
      cases hfault
  · rw [if_pos ⟨rfl, hl⟩]
    refine iff_of_false (fun h => ?_) fun h => hl h.1
    have hfault := h .unsupportedBurst rfl
    cases hfault

theorem rcvCtrlMsg_known {debug : Bool} (h : Known cidList mxHeader.kVector) (fault : TxFault)
    (hrun : t.rcvCtrlMsg debug cidList mxHeader = .error fault) : fault ≠ .outOfRange := by
  obtain ⟨inorder, hinorder, -⟩ := inorderCidVector_total h
  unfold rcvCtrlMsg at hrun
  split_ifs at hrun
  · cases hrun
    decide
  · cases hrun
    decide
  · simp only [hinorder] at hrun
    exact splitMode_fault hrun
  · simp only [hinorder] at hrun
    rw [steerMode_fault hrun]
    decide

end Accepts
end GmaTxControl

/-- The receiver with the TSUs it has sent. -/
structure TsuReceiver (δ : Type) where
  rx : GmaRxControl
  linkState : LinkState
  lastRatio : List δ := []
  tsus : List MxControlHeader := []

inductive ReceiverOp (δ : Type)
  | setSplittingBurst (splittingBurst : ℕ)
  | link (op : LinkState.LinkOp)
  /-- `feedback` says that the manager adds its minimum OWDs, which makes it an update. -/
  | decide (algorithm : RxAlgorithm) (m : RxMeasurement δ) (inputs : Inputs δ) (feedback : Bool)
  | linkDownTsu (cid : Cid)
  | rlAction (action : RlAction)
  | generate (cid : Cid) (reverse : Bool)

namespace TsuReceiver
variable {δ : Type} (R : SplitArith δ)

def tsuOf (s : TsuReceiver δ) (d : SplittingDecision) : MxControlHeader where
  type := .tsu
  l := s.rx.splittingBurst
  kVector := d.splitIndexList
  owdVector := d.minOwdLongTerm
  queueingDelayVector := d.queueingDelay
  reverseFlag := if d.reverse then 1 else 0

def sendTsu (s : TsuReceiver δ) (d : SplittingDecision) : Except RxFault (TsuReceiver δ) :=
  if d.splitIndexList.length ≠ s.linkState.cidList.length then .error .sizeMismatch
  else if d.splitIndexList.sum % 65536 = 0 then .error .sumMismatch
  else .ok { s with tsus := s.tsus ++ [s.tsuOf d] }

def gma2 (m : RxMeasurement δ) (inputs : Inputs δ) (s : TsuReceiver δ) :
    Except RxFault (TsuReceiver δ × SplittingDecision) :=
  if s.rx.splittingBurst = 1 then do
    let (rx, d) ← GmaRxControl.delayAlgorithm R.toDelayArith s.linkState
      { m with delayList := m.minOwdLongTerm } { s.rx with enableLossAlgorithm := false }
    return ({ s with rx }, d)
  else if s.rx.splittingBurst < GmaRxControl.minSplittingBurst ∨
      s.rx.splittingBurst > GmaRxControl.maxSplittingBurst then .error .unsupportedBurst
  else do
    let (v, d) ← GmaRxControl.delayViolationAlgorithm R m ⟨s.rx, s.linkState, s.lastRatio⟩ inputs
    return ({ s with rx := v.rx, linkState := v.linkState, lastRatio := v.lastRatio }, d)

def takeRx (s : TsuReceiver δ) (r : Except RxFault (GmaRxControl × SplittingDecision)) :
    Except RxFault (TsuReceiver δ × SplittingDecision) := do
  let (rx, d) ← r
  return ({ s with rx }, d)

def decision (m : RxMeasurement δ) (inputs : Inputs δ) (s : TsuReceiver δ) :
    Except RxFault (TsuReceiver δ × SplittingDecision) := do
  GmaRxControl.checkSizes m
  match s.rx.algorithm with
  | .qosSteer =>
      s.takeRx (GmaRxControl.qosSteerAlgorithm R s.linkState m inputs s.rx)
  | .gma2 => gma2 R m inputs s
  | .delay | .gma => s.takeRx (GmaRxControl.delayAlgorithm R.toDelayArith s.linkState m s.rx)
  | .congDelay => s.takeRx (GmaRxControl.congDelayAlgorithm R.toDelayArith s.linkState m s.rx)
  | .defaultLink | .rlSplit => return (s, {})

def sendIf (send : Bool) (s : TsuReceiver δ) (d : SplittingDecision) :
    Except RxFault (TsuReceiver δ) :=
  if send then s.sendTsu d else .ok s

def step (s : TsuReceiver δ) : ReceiverOp δ → Except RxFault (TsuReceiver δ)
  | .setSplittingBurst splittingBurst => do
      let rx ← s.rx.setSplittingBurst splittingBurst
      return { s with rx }
  | .link op => .ok { s with linkState := s.linkState.apply op }
  | .decide algorithm m inputs feedback => do
      let (s, d) ← decision R m inputs { s with rx := { s.rx with algorithm } }
      s.sendIf (d.update || (feedback && s.rx.splittingBurst > 1)) d
  | .linkDownTsu cid => do
      let (s, d) ← s.takeRx (GmaRxControl.linkDownTsu s.linkState s.rx cid)
      s.sendIf d.update d
  | .rlAction action => do
      let rx := { s.rx with algorithm := .rlSplit }
      let (s, d) ← s.takeRx (GmaRxControl.rlDecision s.linkState action rx)
      s.sendIf d.update d
  | .generate cid reverse =>
      let (rx, d) := GmaRxControl.generateTrafficSplittingDecision s.linkState s.rx cid reverse
      { s with rx }.sendTsu d

def Promised (s : TsuReceiver δ) : ReceiverOp δ → Prop
  | .decide _ m _ _ => m.cidList = s.linkState.cidList
  | .rlAction action => action.cidList.Perm s.linkState.cidList
  | .link (.addLinkCid cid) => cid ∉ s.linkState.cidList
  | _ => True

instance (s : TsuReceiver δ) (op : ReceiverOp δ) : Decidable (s.Promised op) := by
  rcases op with _ | (_ | _ | _) | _ | _ | _ | _ <;> unfold Promised <;> infer_instance

def machine : Machine (TsuReceiver δ) (ReceiverOp δ) where
  enabled s op := s.Promised op ∧ (step R s op).isOk
  next s op :=
    match step R s op with
    | .ok s' => s'
    | .error _ => s

instance (s : TsuReceiver δ) (op : ReceiverOp δ) : Decidable ((machine R).enabled s op) :=
  inferInstanceAs (Decidable (_ ∧ _))

def Asks (s : TsuReceiver δ) : ReceiverOp δ → Prop
  | .decide .gma2 _ inputs _ =>
      s.rx.adaptiveSplittingBurst → GmaRxControl.adaptiveBurst inputs.estBurstRequirement ≠ 64
  | .rlAction action => action.ratio.sum ≠ 64 ∧ action.ratio.sum < 256
  | _ => True

instance (s : TsuReceiver δ) (op : ReceiverOp δ) : Decidable (s.Asks op) := by
  unfold Asks
  split <;> infer_instance

structure Initial (s : TsuReceiver δ) : Prop where
  shares : s.rx.lastSplittingIndexList = []
  burst : s.rx.splittingBurst ∈ GmaRxControl.setterBursts
  cidList : s.linkState.cidList.Nodup
  tsus : s.tsus = []

structure Exact (tsu : MxControlHeader) : Prop where
  type : tsu.type = .tsu
  burst : tsu.l ∈ GmaRxControl.setterBursts
  sum : tsu.kVector.sum = tsu.l

structure Sound (s : TsuReceiver δ) : Prop where
  within : GmaRxControl.Within s.linkState.cidList.length s.rx
  cidList : s.linkState.cidList.Nodup
  tsus : ∀ tsu ∈ s.tsus, Exact tsu

section Steps
variable {R} {s s' : TsuReceiver δ} {d : SplittingDecision} {m : RxMeasurement δ}
  {inputs : Inputs δ}

theorem sendTsu_sound (h : s.sendTsu d = .ok s') (hs : s.Sound)
    (hfits : GmaRxControl.Fits s.linkState.cidList.length s.rx d.splitIndexList) : s'.Sound := by
  unfold sendTsu at h
  split_ifs at h with hlen hzero
  cases h
  refine ⟨hs.within, hs.cidList, fun tsu htsu => ?_⟩
  rcases List.mem_append.mp htsu with htsu | htsu
  · exact hs.tsus tsu htsu
  · cases List.mem_singleton.mp htsu
    refine ⟨rfl, hs.within.burst, hfits (not_not.mp hlen) ?_⟩
    by_contra hnone
    rw [Nat.eq_zero_of_not_pos hnone] at hzero
    exact hzero rfl

theorem sendIf_sound {send : Bool} (h : s.sendIf send d = .ok s') (hs : s.Sound)
    (hfits : send → GmaRxControl.Fits s.linkState.cidList.length s.rx d.splitIndexList) :
    s'.Sound := by
  unfold sendIf at h
  split_ifs at h with hsend
  · exact sendTsu_sound h hs (hfits hsend)
  · cases h
    exact hs

/-- A decision over the registered links keeps the list in its bounds, and what it sends sums to
the burst. Only split mode sends a list without an update. -/
structure Decided (s s' : TsuReceiver δ) (d : SplittingDecision) : Prop where
  within : GmaRxControl.Within s.linkState.cidList.length s'.rx
  fits : d.update ∨ 1 < s'.rx.splittingBurst →
    GmaRxControl.Fits s.linkState.cidList.length s'.rx d.splitIndexList
  cidList : s'.linkState.cidList = s.linkState.cidList
  tsus : s'.tsus = s.tsus

theorem Decided.sound (h : Decided s s' d) (hs : s.Sound) : s'.Sound :=
  ⟨h.cidList ▸ h.within, h.cidList ▸ hs.cidList, h.tsus ▸ hs.tsus⟩

theorem takeRx_decided {r : Except RxFault (GmaRxControl × SplittingDecision)}
    (h : s.takeRx r = .ok (s', d))
    (hr : ∀ rx, r = .ok (rx, d) → GmaRxControl.Within s.linkState.cidList.length rx ∧
      (d.update ∨ 1 < rx.splittingBurst →
        GmaRxControl.Fits s.linkState.cidList.length rx d.splitIndexList)) : Decided s s' d := by
  simp only [takeRx, bind_eq_ok] at h
  obtain ⟨⟨rx, d'⟩, hrx, h⟩ := h
  cases pure_eq_ok.mp h
  obtain ⟨hw, hfits⟩ := hr rx hrx
  exact ⟨hw, hfits, rfl, rfl⟩

theorem delay_decided (hs : s.Sound) (hcids : m.cidList = s.linkState.cidList)
    (hlinks : m.cidList.length = m.links)
    {rx rx' : GmaRxControl} (hw : GmaRxControl.Within s.linkState.cidList.length rx)
    (h : GmaRxControl.delayAlgorithm R.toDelayArith s.linkState m rx = .ok (rx', d)) :
    GmaRxControl.Within s.linkState.cidList.length rx' ∧
      (d.update ∨ 1 < rx'.splittingBurst →
        GmaRxControl.Fits s.linkState.cidList.length rx' d.splitIndexList) := by
  have hlen : s.linkState.cidList.length = m.links := hcids ▸ hlinks
  obtain ⟨hw', hsum, hd⟩ := GmaRxControl.delayAlgorithm_within h (hcids ▸ hs.cidList) hlinks
    (hlen ▸ hw)
  exact ⟨hlen.symm ▸ hw', fun _ _ _ => hd ▸ hsum⟩

theorem gma2_decided (hs : s.Sound) (hcids : m.cidList = s.linkState.cidList)
    (hsized : GmaRxControl.Sized m)
    (hasks : s.rx.adaptiveSplittingBurst →
      GmaRxControl.adaptiveBurst inputs.estBurstRequirement ≠ 64)
    (h : gma2 R m inputs s = .ok (s', d)) : Decided s s' d := by
  have hlen : s.linkState.cidList.length = m.links := hcids ▸ hsized.cidList
  have hn : m.cidList.Nodup := hcids ▸ hs.cidList
  unfold gma2 at h
  split_ifs at h
  · simp only [bind_eq_ok] at h
    obtain ⟨⟨rx, d'⟩, hrx, h⟩ := h
    cases pure_eq_ok.mp h
    have hw : GmaRxControl.Within s.linkState.cidList.length
        { s.rx with enableLossAlgorithm := false } :=
      ⟨hs.within.sum, hs.within.length, hs.within.burst⟩
    obtain ⟨hw', hfits⟩ := delay_decided (m := { m with delayList := m.minOwdLongTerm })
      hs hcids hsized.cidList hw hrx
    exact ⟨hw', hfits, rfl, rfl⟩
  · simp only [bind_eq_ok] at h
    obtain ⟨⟨v, d'⟩, hv, h⟩ := h
    cases pure_eq_ok.mp h
    obtain ⟨hw, hsum, hd, hlink⟩ := GmaRxControl.delayViolation_within hv (hlen ▸ hs.within) hn
      hsized.cidList hsized.links hasks
    exact ⟨hlen.symm ▸ hw, fun _ _ _ => hd ▸ hsum, hlink, rfl⟩

theorem decision_decided (hs : s.Sound) (hcids : m.cidList = s.linkState.cidList)
    (hasks : s.rx.algorithm = .gma2 → s.rx.adaptiveSplittingBurst →
      GmaRxControl.adaptiveBurst inputs.estBurstRequirement ≠ 64)
    (h : decision R m inputs s = .ok (s', d)) : Decided s s' d := by
  simp only [decision, bind_eq_ok] at h
  obtain ⟨⟨⟩, hsizes, h⟩ := h
  have hsized := GmaRxControl.sized_of_checkSizes hsizes
  have hlen : s.linkState.cidList.length = m.links := hcids ▸ hsized.cidList
  have hn : m.cidList.Nodup := hcids ▸ hs.cidList
  have hnone : s'= s ∧ d = {} → Decided s s' d := by
    rintro ⟨rfl, rfl⟩
    refine ⟨hs.within, fun _ hzero => ?_, rfl, rfl⟩
    exact absurd (hzero.trans hlen).symm hsized.links
  cases halg : s.rx.algorithm with
  | qosSteer =>
    rw [halg] at h
    refine takeRx_decided h fun rx hrx => ?_
    obtain ⟨hw, hone, hfits⟩ := GmaRxControl.qosSteerAlgorithm_within hrx (hlen ▸ hs.within) hn
      hsized.cidList
    refine ⟨hlen.symm ▸ hw, fun hsend => hlen.symm ▸ hfits (hsend.resolve_right ?_)⟩
    rw [hone]
    exact lt_irrefl 1
  | gma2 =>
    rw [halg] at h
    exact gma2_decided hs hcids hsized (hasks halg) h
  | congDelay =>
    rw [halg] at h
    refine takeRx_decided h fun rx hrx => ?_
    obtain ⟨hw, hd⟩ := GmaRxControl.congDelayAlgorithm_within hrx hn hsized.cidList
      (hlen ▸ hs.within)
    refine ⟨hlen.symm ▸ hw, fun _ hfull hpos => ?_⟩
    rcases hd with rfl | ⟨hsum, hd⟩
    · exact absurd hpos (lt_irrefl 0)
    · exact hd ▸ hsum
  | delay =>
    rw [halg] at h
    exact takeRx_decided h fun rx hrx => delay_decided hs hcids hsized.cidList hs.within hrx
  | gma =>
    rw [halg] at h
    exact takeRx_decided h fun rx hrx => delay_decided hs hcids hsized.cidList hs.within hrx
  | defaultLink =>
    rw [halg] at h
    cases pure_eq_ok.mp h
    exact hnone ⟨rfl, rfl⟩
  | rlSplit =>
    rw [halg] at h
    cases pure_eq_ok.mp h
    exact hnone ⟨rfl, rfl⟩

theorem setSplittingBurst_within {links splittingBurst : ℕ} {rx rx' : GmaRxControl}
    (h : rx.setSplittingBurst splittingBurst = .ok rx') (hw : GmaRxControl.Within links rx) :
    GmaRxControl.Within links rx' := by
  unfold GmaRxControl.setSplittingBurst at h
  split_ifs at h with hmem hzero
  · exact absurd (hzero ▸ hmem) (by decide)
  · cases h
    exact ⟨hw.sum, hw.length, hmem⟩

theorem link_sound {op : LinkState.LinkOp} (hp : s.Promised (.link op)) (hs : s.Sound) :
    ({ s with linkState := s.linkState.apply op } : TsuReceiver δ).Sound := by
  have hsame : ∀ l : LinkState, l.cidList = s.linkState.cidList →
      ({ s with linkState := l } : TsuReceiver δ).Sound :=
    fun l hl => ⟨hl.symm ▸ hs.within, hl.symm ▸ hs.cidList, hs.tsus⟩
  cases op with
  | addLinkCid cid =>
    have hlen : (s.linkState.addLinkCid cid).cidList.length = s.linkState.cidList.length + 1 :=
      List.length_append
    refine ⟨⟨hs.within.sum, ?_, hs.within.burst⟩, ?_, hs.tsus⟩
    · exact (hs.within.length.trans (Nat.le_succ _)).trans_eq hlen.symm
    · refine List.nodup_append.mpr ⟨hs.cidList, List.nodup_singleton cid, ?_⟩
      rintro a ha b hb rfl
      exact hp (List.mem_singleton.mp hb ▸ ha)
  | down cause cid => exact hsame _ (LinkState.markDown_cidList _ _ _)
  | up cause cid => exact hsame _ (LinkState.markUp_cidList _ _ _)

theorem step_sound {op : ReceiverOp δ} (h : step R s op = .ok s') (hp : s.Promised op)
    (hasks : s.Asks op) (hs : s.Sound) : s'.Sound := by
  cases op with
  | setSplittingBurst splittingBurst =>
    simp only [step, bind_eq_ok] at h
    obtain ⟨rx, hrx, h⟩ := h
    cases pure_eq_ok.mp h
    exact ⟨setSplittingBurst_within hrx hs.within, hs.cidList, hs.tsus⟩
  | link op =>
    cases h
    exact link_sound hp hs
  | decide algorithm m inputs feedback =>
    simp only [step, bind_eq_ok] at h
    obtain ⟨⟨t, d⟩, hdecision, h⟩ := h
    have hs' : ({ s with rx := { s.rx with algorithm } } : TsuReceiver δ).Sound :=
      ⟨⟨hs.within.sum, hs.within.length, hs.within.burst⟩, hs.cidList, hs.tsus⟩
    have hd := decision_decided hs' hp (fun halg => by
      obtain rfl : algorithm = .gma2 := halg
      exact hasks) hdecision
    refine sendIf_sound h (hd.sound hs') fun hsend => ?_
    have hcause : d.update ∨ 1 < t.rx.splittingBurst := by
      rw [Bool.or_eq_true, Bool.and_eq_true, decide_eq_true_eq] at hsend
      exact hsend.imp id fun hfeedback => hfeedback.2
    exact hd.cidList.symm ▸ hd.fits hcause
  | linkDownTsu cid =>
    simp only [step, bind_eq_ok, takeRx, pure_eq_ok] at h
    obtain ⟨⟨t, d⟩, ⟨⟨rx, d'⟩, hrx, heq⟩, h⟩ := h
    cases heq
    obtain ⟨hw, hfits⟩ := GmaRxControl.linkDownTsu_within hrx hs.within hs.cidList
    exact sendIf_sound h ⟨hw, hs.cidList, hs.tsus⟩ hfits
  | rlAction action =>
    simp only [step, bind_eq_ok, takeRx, pure_eq_ok] at h
    obtain ⟨⟨t, d⟩, ⟨⟨rx, d'⟩, hrx, heq⟩, h⟩ := h
    cases heq
    have hw : GmaRxControl.Within s.linkState.cidList.length
        { s.rx with algorithm := .rlSplit } :=
      ⟨hs.within.sum, hs.within.length, hs.within.burst⟩
    obtain ⟨hw', hsum⟩ := GmaRxControl.rlDecision_within hrx hw hs.cidList hp hasks.2 hasks.1
    exact sendIf_sound h ⟨hw', hs.cidList, hs.tsus⟩ fun _ _ _ => hsum
  | generate cid reverse =>
    obtain ⟨hw, hfits⟩ := GmaRxControl.generate_within hs.within rfl hs.cidList cid
      reverse
    exact sendTsu_sound h ⟨hw, hs.cidList, hs.tsus⟩ hfits

theorem reaches_sound {start : TsuReceiver δ} {ops : List (ReceiverOp δ)} (hstart : start.Initial)
    (h : ((machine R).restrict Asks).Reaches start ops s) : s.Sound := by
  have hinit : start.Sound := by
    refine ⟨⟨?_, ?_, hstart.burst⟩, hstart.cidList, ?_⟩
    · rw [hstart.shares]
      decide
    · rw [hstart.shares]
      exact Nat.zero_le _
    · rw [hstart.tsus]
      exact fun _ hmem => absurd hmem List.not_mem_nil
  refine h.invariant hinit fun t op ht he => ?_
  obtain ⟨⟨hp, hok⟩, hasks⟩ := he
  simp only [Machine.restrict, machine]
  cases hstep : step R t op with
  | error fault => exact ht
  | ok t' => exact step_sound hstep hp hasks ht

end Steps

section Claim
variable {R} {start s : TsuReceiver δ} {ops : List (ReceiverOp δ)}

/-- In a run that never asks for 64 units the burst is one that the sender asserts, and the
sender accepts every TSU as soon as it knows the links that have a share. -/
theorem burst_sizes_agree (hstart : start.Initial)
    (h : ((machine R).restrict Asks).Reaches start ops s) :
    s.rx.splittingBurst ∈ GmaTxControl.assertedBursts ∧
    ∀ tsu ∈ s.tsus, ∀ cidList t, GmaTxControl.Accepts cidList tsu t ↔
      GmaTxControl.Known cidList tsu.kVector := by
  have hs := reaches_sound hstart h
  refine ⟨hs.within.burst, fun tsu htsu cidList t => ?_⟩
  have htsu := hs.tsus tsu htsu
  rw [GmaTxControl.accepts_iff htsu.type]
  exact ⟨fun h => h.2.1, fun hknown => ⟨htsu.burst, hknown, .inr htsu.sum⟩⟩

/-- Whole numbers in the place of doubles; a measured ratio is in units of the burst. -/
def wholeRatios : SplitArith ℤ where
  toDelayArith := RxSystem.wholeNumbers
  ratio share _ := share
  roundDown s _ := s
  roundShare rest _ _ := rest
  sumIsZero ratios := ratios = []
  sumsToOne _ := true
  queueing delay owd := (delay - owd).toNat
  notNegative a := 0 ≤ a
  meetsDelay a := a < 1
  meetsLoss a := a < 1

def twoLinksUp : TsuReceiver ℤ where
  rx := {}
  linkState := { cidList := [0, 1] }

def sizesInTurn : List (ReceiverOp ℤ) :=
  [.setSplittingBurst 8, .decide .delay (RxSystem.twoLinks [20, 5]) {} false,
    .rlAction ⟨2, [1, 0], [100, 28]⟩, .linkDownTsu 0]

theorem burst_sizes_agree_in_turn :
    ∃ s, ((machine wholeRatios).restrict Asks).Reaches twoLinksUp sizesInTurn s ∧
      s.tsus.length = 3 ∧ ∀ tsu ∈ s.tsus, ∀ cidList t, GmaTxControl.Accepts cidList tsu t ↔
        GmaTxControl.Known cidList tsu.kVector := by
  have hreach : ((machine wholeRatios).restrict Asks).Reaches twoLinksUp sizesInTurn _ :=
    Machine.Permits.reaches (by decide)
  have hstart : twoLinksUp.Initial := ⟨rfl, by decide, by decide, rfl⟩
  exact ⟨_, hreach, by decide, (burst_sizes_agree hstart hreach).2⟩

/-- An action of 64 units, which the tables of the sender would allow. -/
theorem burst_of_64_refused :
    ∃ s, (machine wholeRatios).Reaches twoLinksUp [.rlAction ⟨2, [0, 1], [32, 32]⟩] s ∧
      s.rx.splittingBurst = 64 ∧ ∃ tsu ∈ s.tsus, tsu.kVector = [32, 32] ∧ tsu.l = 64 ∧
        GmaTxControl.rcvCtrlMsg true [0, 1] tsu {} = .error .unsupportedBurst := by
  have hreach : (machine wholeRatios).Reaches twoLinksUp [.rlAction ⟨2, [0, 1], [32, 32]⟩] _ :=
    Machine.Permits.reaches (by decide)
  exact ⟨_, hreach, by decide, _, List.mem_singleton_self _, by decide, by decide, by decide⟩

end Claim
end TsuReceiver
end NetGymSim.Gma

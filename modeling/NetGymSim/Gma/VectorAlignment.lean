import NetGymSim.Gma.VectorRuns

/-!
# Alignment of the per-link vectors

Runs of two ends in which links are registered at an end before its first decision and its first
TSU, and a TSU reaches an end with as many links as the sender had. In every state of such a run
the vectors fit the registered links, at both ends and in the messages under way, and every read
is in range.
-/

namespace NetGymSim.Gma
open NetGymSim.Lib

namespace LinkEnd
variable {δ : Type}

/-- The algorithms that keep counters and delays beside the list. -/
def ByDelay (rx : GmaRxControl) : Prop :=
  rx.algorithm = .delay ∨ rx.algorithm = .gma ∨ rx.algorithm = .congDelay ∨
    rx.algorithm = .gma2 ∧ rx.splittingBurst = 1

structure Entries (links : ℕ) (tsu : MxControlHeader) : Prop where
  shares : tsu.kVector.length = links
  owds : tsu.owdVector.length = links
  delays : tsu.queueingDelayVector.length = links

structure Fitting (links : ℕ) (r : TsuReceiver δ) : Prop where
  shares : r.rx.lastSplittingIndexList = [] ∨ r.rx.lastSplittingIndexList.length = links
  beside : ByDelay r.rx → r.rx.decreaseCounter.length = r.rx.lastSplittingIndexList.length ∧
    (r.rx.enableStableAlgorithm → r.rx.lastOwd.length = r.rx.lastSplittingIndexList.length)
  ratio : r.lastRatio = [] ∨ r.rx.lastSplittingIndexList ≠ [] ∧ r.lastRatio.length = links

structure Aligned (s : LinkEnd δ) : Prop where
  registry : s.registry.Registry
  fitting : Fitting s.links s.toTsuReceiver
  tsus : ∀ tsu ∈ s.tsus, Entries s.links tsu

structure PerDevice (s : LinkEnd δ) (m : RxMeasurement δ) : Prop where
  links : m.links = s.deviceList.length
  cidList : m.cidList = s.deviceList
  delayList : m.delayList.length = m.links
  lossRateList : m.lossRateList.length = m.links
  qos : s.rx.algorithm = .qosSteer → m.highDelayRatioList.length = m.links
  regular : s.rx.algorithm ≠ .qosSteer →
    m.delayThisInterval.length = m.links ∧ m.minOwdLongTerm.length = m.links

instance (s : LinkEnd δ) (m : RxMeasurement δ) : Decidable (PerDevice s m) :=
  decidable_of_iff (m.links = s.deviceList.length ∧ m.cidList = s.deviceList ∧
      m.delayList.length = m.links ∧ m.lossRateList.length = m.links ∧
      (s.rx.algorithm = .qosSteer → m.highDelayRatioList.length = m.links) ∧
      (s.rx.algorithm ≠ .qosSteer →
        m.delayThisInterval.length = m.links ∧ m.minOwdLongTerm.length = m.links))
    ⟨fun ⟨h₁, h₂, h₃, h₄, h₅, h₆⟩ => ⟨h₁, h₂, h₃, h₄, h₅, h₆⟩,
      fun h => ⟨h.links, h.cidList, h.delayList, h.lossRateList, h.qos, h.regular⟩⟩

section Receivers
variable {R : SplitArith δ} {links : ℕ} {r : TsuReceiver δ} {m : RxMeasurement δ}
  {inputs : Inputs δ} {rx : GmaRxControl}

theorem Fitting.shaped (h : Fitting links r) (hs : GmaRxControl.Shaped r.rx rx) :
    Fitting links { r with rx } := by
  have hnil : rx.lastSplittingIndexList = [] ↔ r.rx.lastSplittingIndexList = [] := by
    rw [← List.length_eq_zero_iff, hs.length, List.length_eq_zero_iff]
  refine ⟨?_, fun hdelay => ?_, ?_⟩
  · exact h.shares.imp hnil.mpr hs.length.trans
  · have hbefore : ByDelay r.rx := by
      unfold ByDelay at hdelay ⊢
      rwa [hs.algorithm, hs.burst] at hdelay
    obtain ⟨hcounters, howds⟩ := h.beside hbefore
    refine ⟨?_, fun hstable => ?_⟩
    · exact hs.counters.trans (hcounters.trans hs.length.symm)
    · exact hs.owds.trans ((howds (hs.stable ▸ hstable)).trans hs.length.symm)
  · exact h.ratio.imp id fun hratio => ⟨mt hnil.mp hratio.1, hratio.2⟩

theorem Fitting.ranged (h : Fitting links r) (hr : GmaRxControl.Ranged links rx)
    (hpos : links ≠ 0) : Fitting links { r with rx } := by
  have hne : rx.lastSplittingIndexList ≠ [] := by
    intro hnil
    exact hpos (hr.length.symm.trans (by rw [hnil]; rfl))
  refine ⟨.inr hr.length, fun _ => ⟨?_, fun hstable => ?_⟩, ?_⟩
  · exact hr.counters.trans hr.length.symm
  · exact (hr.owds hstable).trans hr.length.symm
  · exact h.ratio.imp id fun hratio => ⟨hne, hratio.2⟩

theorem takeRx_inRange {x : Except RxFault (GmaRxControl × SplittingDecision)}
    {Q : GmaRxControl × SplittingDecision → Prop} {P : TsuReceiver δ × SplittingDecision → Prop}
    (hx : InRange Q x) (hQ : ∀ rx d, Q (rx, d) → P ({ r with rx }, d)) :
    InRange P (r.takeRx x) :=
  hx.bind fun ⟨rx, d⟩ h => Yields.pure (hQ rx d h)

structure Decided (links : ℕ) (r : TsuReceiver δ) (v : TsuReceiver δ × SplittingDecision) :
    Prop where
  fitting : Fitting links v.1
  complete : GmaRxControl.Complete links v.2
  cidList : v.1.linkState.cidList = r.linkState.cidList
  tsus : v.1.tsus = r.tsus

theorem delay_inRange (hm : GmaRxControl.Sized m) (hcids : r.linkState.cidList.length = m.links)
    (h : Fitting m.links r) (hdelay : ByDelay r.rx) :
    InRange (Decided m.links r)
      (r.takeRx (GmaRxControl.delayAlgorithm R.toDelayArith r.linkState m r.rx)) := by
  obtain ⟨hcounters, howds⟩ := h.beside hdelay
  have hranged : GmaRxControl.Ranged m.links
      (GmaRxControl.initSplitting R.toDelayArith r.linkState m r.rx) :=
    GmaRxControl.initSplitting_ranged hm h.shares hcounters howds
  refine takeRx_inRange (GmaRxControl.delayAlgorithm_inRange hm hcids hranged)
    fun rx d ⟨hshaped, hcomplete⟩ => ⟨?_, hcomplete, rfl, rfl⟩
  exact h.ranged (hranged.shaped hshaped) hm.links

theorem congDelay_inRange (hm : GmaRxControl.Sized m)
    (hcids : r.linkState.cidList.length = m.links) (h : Fitting m.links r)
    (hdelay : ByDelay r.rx) :
    InRange (Decided m.links r)
      (r.takeRx (GmaRxControl.congDelayAlgorithm R.toDelayArith r.linkState m r.rx)) := by
  obtain ⟨hcounters, howds⟩ := h.beside hdelay
  have hranged : GmaRxControl.Ranged m.links
      (GmaRxControl.initSplitting R.toDelayArith r.linkState m r.rx) :=
    GmaRxControl.initSplitting_ranged hm h.shares hcounters howds
  refine takeRx_inRange (GmaRxControl.congDelayAlgorithm_inRange hm hcids hranged)
    fun rx d ⟨hshaped, hcomplete⟩ => ⟨?_, hcomplete, rfl, rfl⟩
  exact h.ranged (hranged.shaped hshaped) hm.links

theorem qosSteer_inRange (hm : GmaRxControl.Sized m)
    (hratio : m.highDelayRatioList.length = m.links)
    (hcids : r.linkState.cidList.length = m.links) (h : Fitting m.links r)
    (halg : r.rx.algorithm = .qosSteer) :
    InRange (Decided m.links r)
      (r.takeRx (GmaRxControl.qosSteerAlgorithm R r.linkState m inputs r.rx)) := by
  have hinit : Fitting m.links { r with rx := GmaRxControl.initSteer r.linkState m r.rx } := by
    unfold GmaRxControl.initSteer
    split_ifs with hempty
    · refine ⟨.inr (GmaRxControl.shareOf_length.trans hm.cidList), fun hdelay => ?_, ?_⟩
      · simp [ByDelay, halg] at hdelay
      · exact .inl (h.ratio.resolve_right fun hratio => hratio.1 hempty)
    · exact h
  refine takeRx_inRange (GmaRxControl.qosSteerAlgorithm_inRange hm hratio hcids h.shares)
    fun rx d ⟨hshaped, hcomplete⟩ => ⟨?_, hcomplete, rfl, rfl⟩
  exact hinit.shaped hshaped

theorem gma2_inRange (hsizes : GmaRxControl.checkSizes m = .ok ())
    (hcids : r.linkState.cidList.length = m.links) (h : Fitting m.links r)
    (halg : r.rx.algorithm = .gma2)
    (hnew : inputs.newRatio = [] ∨ inputs.newRatio.length = m.links) :
    InRange (Decided m.links r) (TsuReceiver.gma2 R m inputs r) := by
  have hm := GmaRxControl.sized_of_checkSizes hsizes
  unfold TsuReceiver.gma2
  split_ifs with hsteer
  · have hmin : m.minOwdLongTerm.length = m.links := by
      unfold GmaRxControl.checkSizes at hsizes
      split_ifs at hsizes with hzero hall
      exact hall.2.2.2.1
    have hm' : GmaRxControl.Sized { m with delayList := m.minOwdLongTerm } :=
      ⟨hm.links, hm.cidList, hmin, hm.lossRateList⟩
    let r' : TsuReceiver δ := { r with rx := { r.rx with enableLossAlgorithm := false } }
    have h' : Fitting m.links r' := ⟨h.shares, fun hdelay => h.beside hdelay, h.ratio⟩
    have hrun := delay_inRange (R := R) (m := { m with delayList := m.minOwdLongTerm }) (r := r')
      hm' hcids h' (.inr (.inr (.inr ⟨halg, hsteer⟩)))
    exact hrun.mono fun v hv => ⟨hv.fitting, hv.complete, hv.cidList, hv.tsus⟩
  · exact Yields.error (by decide)
  · have hratio := h.ratio.imp id And.right
    refine (GmaRxControl.delayViolationAlgorithm_inRange (v := ⟨r.rx, r.linkState, r.lastRatio⟩)
      hsizes h.shares hratio hnew).bind fun ⟨v, d⟩ ⟨hv, hcomplete⟩ => Yields.pure ?_
    refine ⟨⟨.inr hv.shares, fun hdelay => ?_, .inr ⟨?_, hv.ratio⟩⟩, hcomplete, hv.cidList, rfl⟩
    · have hsplit : v.rx.splittingBurst ≠ 1 := hv.split hsteer
      have halg' : v.rx.algorithm = .gma2 := hv.algorithm.trans halg
      simp [ByDelay, halg', hsplit] at hdelay
    · intro hnil
      exact hm.links (hv.shares.symm.trans (by rw [hnil]; rfl))

theorem decision_inRange {s : LinkEnd δ} (hm : PerDevice s m)
    (hcids : s.linkState.cidList.length = m.links) (h : Fitting m.links s.toTsuReceiver)
    (hnew : inputs.newRatio = [] ∨ inputs.newRatio.length = m.links) :
    InRange (Decided m.links s.toTsuReceiver) (decision R m inputs s.toTsuReceiver) := by
  unfold decision
  split_ifs with hzero
  · exact Yields.error (by decide)
  · have hcidList : m.cidList.length = m.links := by rw [hm.cidList, hm.links]
    have hsized : GmaRxControl.Sized m := ⟨hzero, hcidList, hm.delayList, hm.lossRateList⟩
    have hnone : Decided m.links s.toTsuReceiver (s.toTsuReceiver, {}) :=
      ⟨h, GmaRxControl.complete_none, rfl, rfl⟩
    cases halg : s.rx.algorithm with
    | qosSteer => exact qosSteer_inRange hsized (hm.qos halg) hcids h halg
    | gma2 =>
      obtain ⟨hthis, hmin⟩ := hm.regular (by rw [halg]; decide)
      have hsizes : GmaRxControl.checkSizes m = .ok () := by
        unfold GmaRxControl.checkSizes
        rw [if_neg hzero, if_pos ⟨hcidList, hthis, hm.delayList, hmin, hm.lossRateList⟩]
      exact gma2_inRange hsizes hcids h halg hnew
    | congDelay => exact congDelay_inRange hsized hcids h (.inr (.inr (.inl halg)))
    | delay => exact delay_inRange hsized hcids h (.inl halg)
    | gma => exact delay_inRange hsized hcids h (.inr (.inl halg))
    | defaultLink => exact Yields.ok hnone
    | rlSplit => exact Yields.ok hnone

end Receivers

/-- What a step of an end keeps; `answers` says that it may send a TSA. -/
structure Evolved (answers : Prop) (s s' : LinkEnd δ) : Prop where
  aligned : s'.Aligned
  links : s'.links = s.links
  tsus : ∃ sent, s'.tsus = s.tsus ++ sent
  tsas : ∀ owds ∈ s'.tsas, owds ∈ s.tsas ∨ answers ∧ owds.length = s.links

section Ends
variable {R : SplitArith δ} {s s' s'' : LinkEnd δ} {answers : Prop} {d : SplittingDecision}
  {header : MxControlHeader}

theorem Aligned.keys_length (h : s.Aligned) : s.linkParamsMap.list.length = s.links :=
  h.registry.keys.length_eq

theorem Aligned.devices_length (h : s.Aligned) : s.deviceList.length = s.links :=
  congrArg List.length h.registry.devices

theorem Evolved.refl (h : s.Aligned) : Evolved answers s s :=
  ⟨h, rfl, ⟨[], (List.append_nil _).symm⟩, fun _ => .inl⟩

theorem Evolved.trans (h : Evolved answers s s') (h' : Evolved answers s' s'') :
    Evolved answers s s'' := by
  obtain ⟨sent, hsent⟩ := h.tsus
  obtain ⟨sent', hsent'⟩ := h'.tsus
  refine ⟨h'.aligned, h'.links.trans h.links, ⟨sent ++ sent', ?_⟩, fun owds howds => ?_⟩
  · rw [hsent', hsent, List.append_assoc]
  · rcases h'.tsas owds howds with hold | ⟨ha, hlen⟩
    · exact h.tsas owds hold
    · exact .inr ⟨ha, hlen.trans h.links⟩

theorem evolved_receiver {r : TsuReceiver δ} (h : s.Aligned) (hf : Fitting s.links r)
    (hcids : r.linkState.cidList = s.linkState.cidList) (htsus : r.tsus = s.tsus) :
    Evolved answers s { s with toTsuReceiver := r } := by
  have hlinks : ({ s with toTsuReceiver := r } : LinkEnd δ).links = s.links :=
    congrArg List.length hcids
  refine ⟨⟨⟨?_, ?_⟩, hlinks.symm ▸ hf, ?_⟩, hlinks, ⟨[], ?_⟩, fun _ => .inl⟩
  · exact h.registry.devices.trans hcids.symm
  · change s.linkParamsMap.list.Perm r.linkState.cidList
    exact hcids ▸ h.registry.keys
  · intro tsu htsu
    rw [hlinks]
    exact h.tsus tsu (htsus ▸ htsu)
  · exact htsus.trans (List.append_nil _).symm

theorem reads_inRange {α : Type} {v : List α} {n : ℕ} (h : n ≤ v.length) :
    InRange (fun w => w.length = n) ((List.range n).mapM (vectorAt v)) := by
  have hreads : InRange (fun w => w.length = (List.range n).length)
      ((List.range n).mapM (vectorAt v)) :=
    Yields.mapM (R := fun _ => True) fun ind hind =>
      (vectorAt_inRange ((List.mem_range.mp hind).trans_le h)).mono fun _ _ => trivial
  rwa [List.length_range] at hreads

theorem sendCtrlMsg_inRange (h : s.Aligned) (hheader : Entries s.links header) :
    InRange (Evolved answers s) (s.sendCtrlMsg header) := by
  unfold sendCtrlMsg readShares
  rw [h.keys_length]
  refine (reads_inRange hheader.shares.ge).bind fun _ _ => Yields.pure ?_
  have hfit : Fitting s.links { s.toTsuReceiver with tsus := s.tsus ++ [header] } :=
    ⟨h.fitting.shares, h.fitting.beside, h.fitting.ratio⟩
  refine ⟨⟨h.registry, hfit, fun tsu htsu => ?_⟩, rfl, ⟨[header], rfl⟩, fun _ => .inl⟩
  rcases List.mem_append.mp htsu with htsu | htsu
  · exact h.tsus tsu htsu
  · exact List.mem_singleton.mp htsu ▸ hheader

theorem sendTsu_inRange (h : s.Aligned)
    (hshares : d.splitIndexList.length = s.links ∨
      d.splitIndexList = [] ∧ d.minOwdLongTerm ≠ []) :
    InRange (Evolved answers s) (s.sendTsu d) := by
  unfold sendTsu
  split_ifs with hdiffer
  · exact Yields.error (by decide)
  · unfold vectorsDiffer at hdiffer
    have howds : d.minOwdLongTerm ≠ [] → d.splitIndexList.length = d.minOwdLongTerm.length := by
      tauto
    have hdelays : d.queueingDelay ≠ [] →
        d.splitIndexList.length = d.queueingDelay.length := by
      tauto
    have hlen : d.splitIndexList.length = s.links := by
      refine hshares.resolve_right fun hnone => hnone.2 ?_
      exact List.eq_nil_of_length_eq_zero ((howds hnone.2).symm.trans (by rw [hnone.1]; rfl))
    refine sendCtrlMsg_inRange h ⟨hlen, ?_, ?_⟩
    · change (if d.minOwdLongTerm = [] then List.replicate d.splitIndexList.length 255
        else d.minOwdLongTerm).length = s.links
      split_ifs with hnil
      · rw [List.length_replicate, hlen]
      · exact (howds hnil).symm.trans hlen
    · change (if d.queueingDelay = [] then List.replicate d.splitIndexList.length 255
        else d.queueingDelay).length = s.links
      split_ifs with hnil
      · rw [List.length_replicate, hlen]
      · exact (hdelays hnil).symm.trans hlen

theorem sendIf_inRange (h : s.Aligned)
    (hshares : d.update → d.splitIndexList.length = s.links ∨
      d.splitIndexList = [] ∧ d.minOwdLongTerm ≠ []) :
    InRange (Evolved answers s) (s.sendIf d) := by
  unfold sendIf
  split_ifs with hupdate
  · exact sendTsu_inRange h (hshares hupdate)
  · exact Yields.ok (Evolved.refl h)

theorem measured_inRange {m : RxMeasurement δ} {inputs : Inputs δ} {feedback : List ℕ}
    (h : s.Aligned) (hm : PerDevice s m)
    (hnew : inputs.newRatio = [] ∨ inputs.newRatio.length = m.links) :
    InRange (Evolved answers s) (s.measured R m inputs feedback) := by
  have hlinks : s.links = m.links := h.devices_length.symm.trans hm.links.symm
  unfold measured
  refine (decision_inRange hm hlinks (hlinks ▸ h.fitting) hnew).bind fun ⟨r, d⟩ hd => ?_
  have hstep : Evolved answers s { s with toTsuReceiver := r } :=
    evolved_receiver h (hlinks.symm ▸ hd.fitting) hd.cidList hd.tsus
  have hlen : ({ s with toTsuReceiver := r } : LinkEnd δ).links = m.links :=
    hstep.links.trans hlinks
  refine (sendIf_inRange hstep.aligned fun hupdate => ?_).mono fun s' hs' => hstep.trans hs'
  rw [hlen]
  unfold addFeedback at hupdate ⊢
  split_ifs at hupdate ⊢ with hfeedback
  · exact hd.complete.shares.symm.imp id fun hnil => ⟨hnil, hfeedback.1⟩
  · exact .inl (hd.complete.update hupdate)

theorem linkDownTsu_inRange {cid : Cid} (h : s.Aligned) :
    InRange (Evolved answers s) (s.linkDownTsu cid) := by
  unfold linkDownTsu
  refine (GmaRxControl.linkDownTsu_inRange h.fitting.shares).bind
    fun ⟨rx, d⟩ ⟨hshaped, hcomplete⟩ => ?_
  have hstep : Evolved answers s { s with rx } :=
    evolved_receiver (r := { s.toTsuReceiver with rx }) h (h.fitting.shaped hshaped) rfl rfl
  exact (sendIf_inRange hstep.aligned fun hupdate => .inl (hcomplete.update hupdate)).mono
    fun s' hs' => hstep.trans hs'

theorem fitting_generate {links : ℕ} {r : TsuReceiver δ} (h : Fitting links r)
    (halg : r.rx.algorithm = .qosSteer) {shares : List ℕ} (hlen : shares.length = links) :
    Fitting links { r with rx := { r.rx with lastSplittingIndexList := shares } } := by
  refine ⟨.inr hlen, fun hdelay => ?_, ?_⟩
  · simp [ByDelay, halg] at hdelay
  · by_cases hzero : links = 0
    · refine .inl (h.ratio.elim id fun hratio => ?_)
      exact List.eq_nil_of_length_eq_zero (hratio.2.trans hzero)
    · refine h.ratio.imp id fun hratio => ⟨fun hnil => hzero ?_, hratio.2⟩
      have hnil' : shares = [] := hnil
      rw [← hlen, hnil']
      rfl

theorem generate_inRange {cid : Cid} {reverse : Bool} (h : s.Aligned)
    (halg : s.rx.algorithm = .qosSteer) :
    InRange (Evolved answers s) (s.generate cid reverse) := by
  have hlen : (shareOf s.rx.splittingBurst cid s.linkState.cidList).length =
      s.links := GmaRxControl.shareOf_length
  unfold generate GmaRxControl.generateTrafficSplittingDecision
  cases reverse with
  | true => exact sendTsu_inRange h (.inl hlen)
  | false =>
    have hstep : Evolved answers s { s with rx := { s.rx with
        lastSplittingIndexList :=
          shareOf s.rx.splittingBurst cid s.linkState.cidList } } :=
      evolved_receiver h (fitting_generate h.fitting halg hlen) rfl rfl
    exact (sendTsu_inRange hstep.aligned (.inl hlen)).mono fun s' hs' => hstep.trans hs'

section Receiving
variable {tsu : MxControlHeader}

theorem rcvCtrlMsg_inRange (hlen : tsu.kVector.length = s.links) :
    InRange (fun _ => True) (s.rcvCtrlMsg tsu) := by
  have hknown : GmaTxControl.Known s.linkState.cidList tsu.kVector := by
    intro p hp _
    obtain ⟨-, hlt, -⟩ := List.mem_zipIdx hp
    rwa [Nat.zero_add, hlen] at hlt
  unfold rcvCtrlMsg
  cases hrun : s.tx.rcvCtrlMsg false s.linkState.cidList tsu with
  | ok tx => exact Yields.ok trivial
  | error fault =>
    have hne := GmaTxControl.rcvCtrlMsg_known hknown fault hrun
    refine Yields.error ?_
    cases fault with
    | outOfRange => exact absurd rfl hne
    | _ => exact (by decide : RxFault.unsupportedBurst ≠ .outOfRange)

theorem emulateDelays_length (cidList : List Cid) (owds : List ℕ) (delay : Cid → ℕ) :
    (emulateDelays cidList owds delay).2.length = min cidList.length owds.length := by
  unfold emulateDelays
  dsimp only
  split_ifs
  · rw [List.length_map, raiseDelays_offsets, List.length_map, List.length_zip]
  · rw [raiseDelays_offsets, List.length_map, List.length_zip]

theorem drain_inRange {offsets : List ℤ} (hlen : offsets.length = s.links)
    (hshares : tsu.kVector.length = s.links) (found : Bool) :
    InRange (fun _ => True) (s.drain tsu.kVector offsets found) := by
  unfold drain
  split_ifs
  · have htimes : InRange (fun times => times.length = offsets.zipIdx.length)
        (offsets.zipIdx.mapM (drainTime tsu.kVector)) := by
      refine Yields.mapM (R := fun _ => True) fun p hp => ?_
      obtain ⟨-, hlt, -⟩ := List.mem_zipIdx hp
      unfold drainTime
      split_ifs
      · refine (vectorAt_inRange ?_).bind fun _ _ => Yields.pure trivial
        omega
      · exact Yields.ok trivial
    refine htimes.bind fun times hlength => ?_
    rw [List.length_zipIdx, hlen] at hlength
    exact (reads_inRange hlength.ge).mono fun _ _ => trivial
  · exact Yields.ok trivial

theorem respondTsa_evolved (h : s.Aligned) {offsets : List ℤ}
    (hlen : offsets.length = s.links) : Evolved True s (s.respondTsa offsets) := by
  refine ⟨⟨h.registry, h.fitting, h.tsus⟩, rfl, ⟨[], (List.append_nil _).symm⟩, ?_⟩
  intro owds howds
  rcases List.mem_append.mp howds with howds | howds
  · exact .inl howds
  · obtain rfl := List.mem_singleton.mp howds
    exact .inr ⟨trivial, (List.length_map _).trans hlen⟩

theorem acceptTsu_inRange (h : s.Aligned) (htsu : Entries s.links tsu) :
    InRange (Evolved True s) (s.acceptTsu tsu) := by
  unfold acceptTsu
  refine (rcvCtrlMsg_inRange htsu.shares).bind fun tx _ => ?_
  refine (reads_inRange htsu.owds.ge).bind fun owds howds => ?_
  have hlen : (emulateDelays s.linkState.cidList owds s.emulateDelay).2.length = s.links := by
    rw [emulateDelays_length, howds]
    exact min_self _
  have hfind : InRange (fun _ => True)
      ((emulateDelays s.linkState.cidList owds s.emulateDelay).2.zipIdx.foldlM
        (findLinkTurn tsu.kVector) false) := by
    refine Yields.foldlM (fun found p hp _ => ?_) trivial
    obtain ⟨-, hlt, -⟩ := List.mem_zipIdx hp
    have hin := htsu.shares
    unfold findLinkTurn
    split_ifs
    · refine (vectorAt_inRange ?_).bind fun _ _ => Yields.pure trivial
      omega
    · exact Yields.ok trivial
  refine hfind.bind fun found _ => (drain_inRange hlen htsu.shares found).bind fun _ _ => ?_
  have hs₁ : ({ s with tx, emulateDelay :=
      (emulateDelays s.linkState.cidList owds s.emulateDelay).1 } : LinkEnd δ).Aligned :=
    ⟨h.registry, h.fitting, h.tsus⟩
  have hanswer := respondTsa_evolved hs₁ hlen
  exact Yields.pure ⟨hanswer.aligned, hanswer.links, hanswer.tsus, hanswer.tsas⟩

theorem rcvReverseTsu_fitting (h : s.Aligned) (halg : s.rx.algorithm = .qosSteer)
    (kVector : List ℕ) : Fitting s.links
      { s.toTsuReceiver with rx := (s.registry.rcvReverseTsu kVector s.rx).1 } := by
  have hfold : ∀ (pairs : List (Cid × ℕ)) (v : GmaRxControl × List (Cid × SplittingDecision)),
      Fitting s.links { s.toTsuReceiver with rx := v.1 } → v.1.algorithm = .qosSteer →
      Fitting s.links { s.toTsuReceiver with rx := (pairs.foldl (fun v p =>
        let r := GmaRxControl.generateTrafficSplittingDecision s.linkState v.1 p.1 false
        (r.1, v.2 ++ [(p.1, r.2)])) v).1 } := by
    intro pairs
    induction pairs with
    | nil => exact fun v hv _ => hv
    | cons p pairs ih =>
      intro v hv halg
      rw [List.foldl_cons]
      exact ih _ (fitting_generate hv halg GmaRxControl.shareOf_length) halg
  exact hfold _ (s.rx, []) h.fitting halg

theorem rcvReverseTsu_inRange (h : s.Aligned) (htsu : Entries s.links tsu)
    (halg : s.rx.algorithm = .qosSteer) :
    InRange (Evolved True s) (s.rcvReverseTsu tsu) := by
  unfold rcvReverseTsu readShares
  rw [h.keys_length]
  refine (reads_inRange htsu.shares.ge).bind fun _ _ => ?_
  have hstep : Evolved True s
      { s with rx := (s.registry.rcvReverseTsu tsu.kVector s.rx).1 } :=
    evolved_receiver h (rcvReverseTsu_fitting h halg tsu.kVector) rfl rfl
  have hturned : Entries s.links { tsu with reverseFlag := 0 } :=
    ⟨htsu.shares, htsu.owds, htsu.delays⟩
  exact (sendCtrlMsg_inRange hstep.aligned hturned).mono fun s' hs' => hstep.trans hs'

theorem recvTsu_inRange (h : s.Aligned) (htsu : Entries s.links tsu) (fresh : Bool) :
    InRange (Evolved True s) (s.recvTsu tsu fresh) := by
  unfold recvTsu
  split_ifs with hfresh hturns
  · exact rcvReverseTsu_inRange h htsu hturns.1
  · exact acceptTsu_inRange h htsu
  · exact Yields.ok (respondTsa_evolved h (List.length_map _))

theorem recvTsa_inRange (h : s.Aligned) {owdVector : List ℕ} (hlen : owdVector.length = s.links) :
    InRange (Evolved answers s) (s.recvTsa owdVector) := by
  unfold recvTsa
  split_ifs
  · exact Yields.ok (Evolved.refl h)
  · rw [h.devices_length]
    exact (reads_inRange hlen.ge).bind fun _ _ => Yields.pure (Evolved.refl h)

end Receiving

theorem addPhyLink_aligned (h : s.Aligned) (cid : Cid)
    (hearly : s.rx.lastSplittingIndexList = [] ∧ s.tsus = []) : (s.addPhyLink cid).Aligned := by
  refine ⟨h.registry.addPhyLink cid, ⟨.inl hearly.1, h.fitting.beside, ?_⟩, ?_⟩
  · exact .inl (h.fitting.ratio.resolve_right fun hratio => hratio.1 hearly.1)
  · intro tsu htsu
    have htsus : (s.addPhyLink cid).tsus = [] := hearly.2
    rw [htsus] at htsu
    cases htsu

theorem addPhyLink_known {cid : Cid} (h : cid ∈ s.linkParamsMap.list) :
    s.addPhyLink cid = s := by
  have hsame : s.registry.addPhyLink cid = s.registry := by
    have hknown : cid ∈ s.registry.linkParamsMap.list := h
    unfold LinkRegistry.addPhyLink
    rw [dif_pos hknown]
  unfold addPhyLink
  rw [hsame]
  rfl

end Ends

section Network
variable (R : SplitArith δ)

/-- What the callers and the network promise: a measurement is of the devices, QoS steering is
the one algorithm that generates decisions for a link, and a message was sent before. -/
def Promised (s : Bool → LinkEnd δ) (e : Bool) : EndOp δ → Prop
  | .measured m inputs _ => PerDevice (s e) m ∧
      (inputs.newRatio = [] ∨ inputs.newRatio.length = m.links)
  | .generate _ _ => (s e).rx.algorithm = .qosSteer
  | .resend tsu => tsu ∈ (s e).tsus
  | .recvTsu tsu _ => tsu ∈ (s !e).tsus
  | .recvTsa owdVector => owdVector ∈ (s !e).tsas
  | _ => True

/-- A new link comes before the first decision and the first TSU of its end, and a TSU is of as
many links as the end has that it reaches. -/
def Settled (s : Bool → LinkEnd δ) (e : Bool) : EndOp δ → Prop
  | .addPhyLink cid => cid ∈ (s e).linkParamsMap.list ∨
      (s e).rx.lastSplittingIndexList = [] ∧ (s e).tsus = []
  | .recvTsu tsu _ => tsu.kVector.length = (s e).links
  | _ => True

instance (s : Bool → LinkEnd δ) (e : Bool) (op : EndOp δ) : Decidable (Promised s e op) := by
  unfold Promised
  split <;> infer_instance

instance (s : Bool → LinkEnd δ) (e : Bool) (op : EndOp δ) : Decidable (Settled s e op) := by
  unfold Settled
  split <;> infer_instance

def machine : Machine (Bool → LinkEnd δ) (Bool × EndOp δ) where
  enabled s op := Promised s op.1 op.2 ∧ (step R (s op.1) op.2).isOk
  next s op :=
    match step R (s op.1) op.2 with
    | .ok s' => Function.update s op.1 s'
    | .error _ => s

instance (s : Bool → LinkEnd δ) (op : Bool × EndOp δ) : Decidable ((machine R).enabled s op) :=
  inferInstanceAs (Decidable (_ ∧ _))

structure Initial (s : LinkEnd δ) : Prop where
  registry : s.registry.Registry
  shares : s.rx.lastSplittingIndexList = []
  counters : s.rx.decreaseCounter = []
  owds : s.rx.lastOwd = []
  ratio : s.lastRatio = []
  tsus : s.tsus = []
  tsas : s.tsas = []

/-- Both ends are aligned, and a TSA answers a TSU of the end it goes to. -/
structure AlignedEnds (s : Bool → LinkEnd δ) : Prop where
  ends : ∀ e, (s e).Aligned
  tsas : ∀ e, ∀ owds ∈ (s e).tsas, owds.length = (s !e).links ∧ (s !e).tsus ≠ []

section Steps
variable {R} {s : Bool → LinkEnd δ} {e : Bool} {op : EndOp δ}

theorem initial_aligned {s : LinkEnd δ} (h : s.Initial) : s.Aligned := by
  refine ⟨h.registry, ⟨.inl h.shares, fun _ => ⟨?_, fun _ => ?_⟩, .inl h.ratio⟩, ?_⟩
  · rw [h.counters, h.shares]
  · rw [h.owds, h.shares]
    rfl
  · rw [h.tsus]
    exact fun _ htsu => absurd htsu List.not_mem_nil

def Answers : EndOp δ → Prop
  | .recvTsu _ _ => True
  | _ => False

theorem step_inRange (h : AlignedEnds s) (hp : Promised s e op) (hset : Settled s e op)
    (hop : ∀ cid, op ≠ .addPhyLink cid) :
    InRange (Evolved (Answers op) (s e)) (step R (s e) op) := by
  have ha := h.ends e
  cases op with
  | addPhyLink cid => exact absurd rfl (hop cid)
  | down cause cid =>
    exact Yields.ok (evolved_receiver (r := { (s e).toTsuReceiver with
      linkState := ((s e).linkState.markDown cause cid).1 }) ha
      ⟨ha.fitting.shares, ha.fitting.beside, ha.fitting.ratio⟩
      (LinkState.markDown_cidList _ _ _) rfl)
  | up cause cid =>
    exact Yields.ok (evolved_receiver (r := { (s e).toTsuReceiver with
      linkState := ((s e).linkState.markUp cause cid).1 }) ha
      ⟨ha.fitting.shares, ha.fitting.beside, ha.fitting.ratio⟩
      (LinkState.markUp_cidList _ _ _) rfl)
  | measured m inputs feedback => exact measured_inRange ha hp.1 hp.2
  | linkDownTsu cid => exact linkDownTsu_inRange ha
  | generate cid reverse => exact generate_inRange ha hp
  | resend tsu =>
    unfold step readShares
    rw [ha.keys_length]
    exact (reads_inRange (ha.tsus tsu hp).shares.ge).bind fun _ _ =>
      Yields.pure (Evolved.refl ha)
  | recvTsu tsu fresh =>
    have hsent := (h.ends !e).tsus tsu hp
    have hlinks : (s !e).links = (s e).links := hsent.shares.symm.trans hset
    exact recvTsu_inRange ha (hlinks ▸ hsent) fresh
  | recvTsa owdVector =>
    have hlen := (h.tsas (!e) owdVector hp).1
    rw [Bool.not_not] at hlen
    exact recvTsa_inRange ha hlen

theorem next_update {s' : LinkEnd δ} (hstep : step R (s e) op = .ok s') :
    (machine R).next s (e, op) = Function.update s e s' := by
  simp only [machine, hstep]

theorem AlignedEnds.update {s' : LinkEnd δ} (h : AlignedEnds s) (hs' : s'.Aligned)
    (hout : ∀ owds ∈ s'.tsas, owds.length = (s !e).links ∧ (s !e).tsus ≠ [])
    (hback : ∀ owds ∈ (s !e).tsas, owds.length = s'.links ∧ s'.tsus ≠ []) :
    AlignedEnds (Function.update s e s') := by
  have hne : (!e) ≠ e := Bool.not_ne_self e
  constructor
  · intro e'
    by_cases heq : e' = e
    · subst heq
      rw [Function.update_self]
      exact hs'
    · rw [Function.update_of_ne heq]
      exact h.ends e'
  · intro e' owds howds
    by_cases heq : e' = e
    · subst heq
      rw [Function.update_self] at howds
      rw [Function.update_of_ne hne]
      exact hout owds howds
    · obtain rfl : e' = !e := Bool.eq_not_of_ne heq
      rw [Function.update_of_ne heq] at howds
      rw [Bool.not_not, Function.update_self]
      exact hback owds howds

theorem update_evolved {answers : Prop} {s' : LinkEnd δ} (h : AlignedEnds s)
    (hs' : Evolved answers (s e) s')
    (hanswers : answers → (s !e).links = (s e).links ∧ (s !e).tsus ≠ []) :
    AlignedEnds (Function.update s e s') := by
  apply h.update hs'.aligned
  · intro owds howds
    rcases hs'.tsas owds howds with hold | ⟨ha, hlen⟩
    · exact h.tsas e owds hold
    · exact ⟨hlen.trans (hanswers ha).1.symm, (hanswers ha).2⟩
  · intro owds howds
    obtain ⟨hlen, hsent⟩ := h.tsas (!e) owds howds
    rw [Bool.not_not] at hlen hsent
    obtain ⟨sent, htsus⟩ := hs'.tsus
    refine ⟨hlen.trans hs'.links.symm, ?_⟩
    rw [htsus]
    exact List.append_ne_nil_of_left_ne_nil hsent sent

theorem update_addPhyLink (h : AlignedEnds s) (cid : Cid)
    (hearly : (s e).rx.lastSplittingIndexList = [] ∧ (s e).tsus = []) :
    AlignedEnds (Function.update s e ((s e).addPhyLink cid)) := by
  apply h.update (addPhyLink_aligned (h.ends e) cid hearly)
  · exact h.tsas e
  · intro owds howds
    have hsent := (h.tsas (!e) owds howds).2
    rw [Bool.not_not] at hsent
    exact absurd hearly.2 hsent

theorem next_aligned (h : AlignedEnds s) (hp : Promised s e op) (hset : Settled s e op) :
    AlignedEnds ((machine R).next s (e, op)) := by
  by_cases hadd : ∃ cid, op = .addPhyLink cid
  · obtain ⟨cid, rfl⟩ := hadd
    rw [next_update rfl]
    rcases hset with hknown | hearly
    · rw [addPhyLink_known hknown, Function.update_eq_self]
      exact h
    · exact update_addPhyLink h cid hearly
  · have hrun := step_inRange (R := R) h hp hset fun cid heq => hadd ⟨cid, heq⟩
    cases hstep : step R (s e) op with
    | error fault =>
      simp only [machine, hstep]
      exact h
    | ok s' =>
      rw [next_update hstep]
      rw [hstep] at hrun
      refine update_evolved h hrun fun hanswers => ?_
      cases op with
      | recvTsu tsu fresh =>
        have hsent := (h.ends !e).tsus tsu hp
        exact ⟨hsent.shares.symm.trans hset, List.ne_nil_of_mem hp⟩
      | _ => exact hanswers.elim

theorem reaches_aligned {start : Bool → LinkEnd δ} {ops : List (Bool × EndOp δ)}
    (hstart : ∀ e, (start e).Initial)
    (h : ((machine R).restrict fun s op => Settled s op.1 op.2).Reaches start ops s) :
    AlignedEnds s := by
  have hinit : AlignedEnds start := by
    refine ⟨fun e => initial_aligned (hstart e), fun e owds howds => ?_⟩
    rw [(hstart e).tsas] at howds
    cases howds
  refine h.invariant hinit fun t op ht he => ?_
  obtain ⟨⟨hp, -⟩, hset⟩ := he
  exact next_aligned ht hp hset

end Steps

section Claim
variable {R} {start s : Bool → LinkEnd δ} {ops : List (Bool × EndOp δ)}

/-- In a run that registers links early and at both ends alike, the list is empty or has an entry
per link in each container, so have the vectors of each TSU, and no step reads out of range. -/
theorem vectors_aligned (hstart : ∀ e, (start e).Initial)
    (h : ((machine R).restrict fun s op => Settled s op.1 op.2).Reaches start ops s) :
    (∀ e, ((s e).rx.lastSplittingIndexList = [] ∨
        (s e).rx.lastSplittingIndexList.length = (s e).links) ∧
      (s e).deviceList.length = (s e).links ∧ (s e).linkParamsMap.list.length = (s e).links ∧
      ∀ tsu ∈ (s e).tsus, Entries (s e).links tsu) ∧
    ∀ e op, Promised s e op → Settled s e op → step R (s e) op ≠ .error .outOfRange := by
  have hs := reaches_aligned hstart h
  refine ⟨fun e => ?_, fun e op hp hset => ?_⟩
  · have ha := hs.ends e
    exact ⟨ha.fitting.shares, ha.devices_length, ha.keys_length, ha.tsus⟩
  · by_cases hadd : ∃ cid, op = .addPhyLink cid
    · obtain ⟨cid, rfl⟩ := hadd
      intro herror
      cases herror
    · exact (step_inRange hs hp hset fun cid heq => hadd ⟨cid, heq⟩).ne

def noLinks : Bool → LinkEnd ℤ := fun _ =>
  { rx := { splittingBurst := 4 }, linkState := { cidList := [] } }

theorem noLinks_initial (e : Bool) : (noLinks e).Initial :=
  ⟨⟨rfl, List.Perm.nil⟩, rfl, rfl, rfl, rfl, rfl, rfl⟩

def decided : List (Bool × EndOp ℤ) :=
  [(false, .addPhyLink 0), (false, .addPhyLink 1), (true, .addPhyLink 0), (true, .addPhyLink 1),
    (false, .up .ctrFailed 1), (false, .measured (RxSystem.twoLinks [5, 20]) {} [])]

def decidedTsu : MxControlHeader :=
  { type := .tsu, l := 4, kVector := [1, 3], owdVector := [255, 255]
    queueingDelayVector := [255, 255] }

def exchange : List (Bool × EndOp ℤ) :=
  decided ++ [(true, .recvTsu decidedTsu true), (false, .recvTsa [127, 127])]

theorem vectors_aligned_exchange :
    ∃ s, ((machine TsuReceiver.wholeRatios).restrict fun s op => Settled s op.1 op.2).Reaches
        noLinks exchange s ∧ (s false).tsus = [decidedTsu] ∧
      ∀ e op, Promised s e op → Settled s e op →
        step TsuReceiver.wholeRatios (s e) op ≠ .error .outOfRange := by
  have hreach : ((machine TsuReceiver.wholeRatios).restrict fun s op => Settled s op.1 op.2).Reaches
      noLinks exchange _ := Machine.Permits.reaches (by decide)
  exact ⟨_, hreach, by decide, (vectors_aligned noLinks_initial hreach).2⟩

/-- A third link after the decision. The list and the TSU have two entries, and the next
measurement, with three, and a retransmission read the third. -/
theorem late_link_out_of_range :
    ∃ s, (machine TsuReceiver.wholeRatios).Reaches noLinks
        (decided ++ [(false, .addPhyLink 2)]) s ∧
      (s false).links = 3 ∧ (s false).rx.lastSplittingIndexList = [1, 3] ∧
      (∃ m, Promised s false (.measured m {} []) ∧
        step TsuReceiver.wholeRatios (s false) (.measured m {} []) = .error .outOfRange) ∧
      Promised s false (.resend decidedTsu) ∧
      step TsuReceiver.wholeRatios (s false) (.resend decidedTsu) = .error .outOfRange := by
  have hreach : (machine TsuReceiver.wholeRatios).Reaches noLinks
      (decided ++ [(false, .addPhyLink 2)]) _ := Machine.Permits.reaches (by decide)
  let m : RxMeasurement ℤ :=
    ⟨3, [0, 1, 2], [true, true, true], [5, 5, 5], [1, 1, 1], [0, 0, 0], [], [], [], 0⟩
  exact ⟨_, hreach, by decide, by decide, ⟨m, by decide, rfl⟩, by decide, rfl⟩

end Claim
end Network
end LinkEnd
end NetGymSim.Gma

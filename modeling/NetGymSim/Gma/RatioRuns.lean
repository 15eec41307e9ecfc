import NetGymSim.Gma.RatioConservation
import NetGymSim.Lib.Machine

/-!
# Runs of the receiver's traffic splitting

Decisions of the delay algorithms, failures of links and changes of the link state in any
order. A measurement comes from `MeasurementManager`, which has one device per link, and
`AddPhyLink` registers a link once. A step that fails ends the program, so that a run has none;
that the steps of the regular case do not fail is a result of its own.
-/

namespace NetGymSim.Gma
open NetGymSim.Lib

structure RxSystem where
  rx : GmaRxControl
  linkState : LinkState

inductive RxOp (δ : Type)
  | decide (algorithm : RxAlgorithm) (m : RxMeasurement δ)
  | linkDownTsu (cid : Cid)
  | link (op : LinkState.LinkOp)

namespace RxSystem
variable {δ : Type} (A : DelayArith δ)
  (other : GmaRxControl → Except RxFault (GmaRxControl × SplittingDecision))

def step (s : RxSystem) : RxOp δ → Except RxFault RxSystem
  | .decide algorithm m => do
      let (rx, _) ← GmaRxControl.getTrafficSplittingDecision A s.linkState m other
        { s.rx with algorithm }
      return { s with rx }
  | .linkDownTsu cid => do
      let (rx, _) ← GmaRxControl.linkDownTsu s.linkState s.rx cid
      return { s with rx }
  | .link op => return { s with linkState := s.linkState.apply op }

def delayAlgorithms : List RxAlgorithm := [.delay, .gma, .congDelay]

def Promised (s : RxSystem) : RxOp δ → Prop
  | .decide algorithm m => algorithm ∈ delayAlgorithms ∧ m.cidList.Nodup
  | .linkDownTsu _ => True
  | .link (.addLinkCid cid) => cid ∉ s.linkState.cidList
  | .link _ => True

instance (s : RxSystem) (op : RxOp δ) : Decidable (s.Promised op) := by
  rcases op with ⟨_, _⟩ | _ | (_ | _ | _) <;> unfold Promised <;> infer_instance

def machine : Machine RxSystem (RxOp δ) where
  enabled s op := s.Promised op ∧ (step A other s op).isOk
  next s op :=
    match step A other s op with
    | .ok s' => s'
    | .error _ => s

instance (s : RxSystem) (op : RxOp δ) : Decidable ((machine A other).enabled s op) :=
  inferInstanceAs (Decidable (_ ∧ _))

structure Initial (s : RxSystem) : Prop where
  shares : s.rx.lastSplittingIndexList = []
  counters : s.rx.decreaseCounter = []
  owds : s.rx.lastOwd = []
  pos : 0 < s.rx.splittingBurst
  burst : s.rx.splittingBurst < 256
  cidList : s.linkState.cidList.Nodup

structure Sound (splittingBurst : ℕ) (s : RxSystem) : Prop where
  conserved : s.rx.Conserved
  splittingBurst : s.rx.splittingBurst = splittingBurst
  cidList : s.linkState.cidList.Nodup

def Regular (s : RxSystem) : RxOp δ → Prop
  | .decide algorithm m => algorithm ∈ delayAlgorithms ∧ GmaRxControl.Covers s.linkState m ∧
      GmaRxControl.Matches s.linkState s.rx
  | .linkDownTsu cid => cid ∈ s.linkState.cidList ∧ GmaRxControl.Matches s.linkState s.rx
  | .link _ => True

section Steps
variable {A other} {s s' : RxSystem} {b : ℕ} {m : RxMeasurement δ} {algorithm : RxAlgorithm}

theorem decide_conserved {rx : GmaRxControl} {d : SplittingDecision}
    (h : GmaRxControl.getTrafficSplittingDecision A s.linkState m other
      { s.rx with algorithm } = .ok (rx, d))
    (halg : algorithm ∈ delayAlgorithms) (hn : m.cidList.Nodup) (hs : s.rx.Conserved) :
    rx.Conserved ∧ rx.splittingBurst = s.rx.splittingBurst ∧ rx.lastSplittingIndexList ≠ [] := by
  simp only [GmaRxControl.getTrafficSplittingDecision, bind_eq_ok] at h
  obtain ⟨⟨⟩, hsizes, h⟩ := h
  have hm := GmaRxControl.sized_of_checkSizes hsizes
  have hstart : ({ s.rx with algorithm } : GmaRxControl).Started :=
    ⟨hs.burst, hs.started.shares, hs.counters, hs.owds⟩
  have hdelay : GmaRxControl.delayAlgorithm A s.linkState m { s.rx with algorithm } = .ok (rx, d) →
      rx.Conserved ∧ rx.splittingBurst = s.rx.splittingBurst ∧
        rx.lastSplittingIndexList ≠ [] := by
    intro h
    obtain ⟨hc, hb, hne, -⟩ := GmaRxControl.delayAlgorithm_conserved h hstart hm hn
    exact ⟨hc, hb, hne⟩
  have hcong : GmaRxControl.congDelayAlgorithm A s.linkState m { s.rx with algorithm } =
        .ok (rx, d) →
      rx.Conserved ∧ rx.splittingBurst = s.rx.splittingBurst ∧
        rx.lastSplittingIndexList ≠ [] := by
    intro h
    obtain ⟨hc, hb, hne⟩ := GmaRxControl.congDelayAlgorithm_conserved h hstart hm hn
    exact ⟨hc, hb, hne⟩
  simp only [delayAlgorithms, List.mem_cons, List.not_mem_nil, or_false] at halg
  rcases halg with rfl | rfl | rfl
  · exact hdelay h
  · exact hdelay h
  · exact hcong h

theorem step_sound {op : RxOp δ} (h : step A other s op = .ok s') (hp : s.Promised op)
    (hs : s.Sound b) : s'.Sound b := by
  cases op with
  | decide algorithm m =>
    simp only [step, bind_eq_ok] at h
    obtain ⟨⟨rx, d⟩, hrx, h⟩ := h
    cases pure_eq_ok.mp h
    obtain ⟨hc, hb, -⟩ := decide_conserved hrx hp.1 hp.2 hs.conserved
    exact ⟨hc, hb.trans hs.splittingBurst, hs.cidList⟩
  | linkDownTsu cid =>
    simp only [step, bind_eq_ok] at h
    obtain ⟨⟨rx, d⟩, hrx, h⟩ := h
    cases pure_eq_ok.mp h
    obtain ⟨hc, hb, -⟩ := GmaRxControl.linkDownTsu_conserved hrx hs.conserved
    exact ⟨hc, hb.trans hs.splittingBurst, hs.cidList⟩
  | link op =>
    cases pure_eq_ok.mp h
    refine ⟨hs.conserved, hs.splittingBurst, ?_⟩
    cases op with
    | addLinkCid cid =>
      refine List.nodup_append.mpr ⟨hs.cidList, List.nodup_singleton cid, ?_⟩
      rintro a ha b hb rfl
      exact hp (List.mem_singleton.mp hb ▸ ha)
    | down cause cid =>
      show (s.linkState.markDown cause cid).1.cidList.Nodup
      rw [LinkState.markDown_cidList]
      exact hs.cidList
    | up cause cid =>
      show (s.linkState.markUp cause cid).1.cidList.Nodup
      rw [LinkState.markUp_cidList]
      exact hs.cidList

theorem next_sound {op : RxOp δ} (he : (machine A other).enabled s op) (hs : s.Sound b) :
    ((machine A other).next s op).Sound b := by
  obtain ⟨hp, hok⟩ := he
  simp only [machine]
  cases h : step A other s op with
  | error e =>
    rw [h] at hok
    cases hok
  | ok s' => exact step_sound h hp hs

theorem reaches_sound {start : RxSystem} {ops : List (RxOp δ)} (hstart : start.Initial)
    (h : (machine A other).Reaches start ops s) : s.Sound start.rx.splittingBurst := by
  refine h.invariant ⟨⟨hstart.burst, ?_, ?_, ?_⟩, rfl, hstart.cidList⟩
    fun _ _ hs he => next_sound he hs
  · exact fun hne => absurd hstart.shares hne
  · rw [hstart.counters, hstart.shares]
  · exact fun _ => by rw [hstart.owds, hstart.shares, List.length_nil, List.length_nil]

theorem step_total {op : RxOp δ} (hs : s.Sound b) (hpos : 0 < b) (hr : s.Regular op) :
    ∃ s', step A other s op = .ok s' := by
  cases op with
  | decide algorithm m =>
    obtain ⟨halg, hc, hmatch⟩ := hr
    have hburst : 0 < s.rx.splittingBurst := hs.splittingBurst.symm ▸ hpos
    have hready : GmaRxControl.Ready m (GmaRxControl.initSplitting A s.linkState m
        { s.rx with algorithm }) := by
      refine GmaRxControl.initSplitting_ready ?_ hburst hc hmatch
      exact ⟨hs.conserved.burst, hs.conserved.sum, hs.conserved.counters, hs.conserved.owds⟩
    obtain ⟨⟨rx, d⟩, hrx⟩ : ∃ r, GmaRxControl.getTrafficSplittingDecision A s.linkState m other
        { s.rx with algorithm } = .ok r := by
      simp only [GmaRxControl.getTrafficSplittingDecision, bind_eq_ok]
      simp only [delayAlgorithms, List.mem_cons, List.not_mem_nil, or_false] at halg
      rcases halg with rfl | rfl | rfl
      · obtain ⟨r, hr⟩ := GmaRxControl.delayAlgorithm_total hready hc
        exact ⟨r, (), hc.sizes, hr⟩
      · obtain ⟨r, hr⟩ := GmaRxControl.delayAlgorithm_total hready hc
        exact ⟨r, (), hc.sizes, hr⟩
      · obtain ⟨r, hr⟩ := GmaRxControl.congDelayAlgorithm_total hready hc
        exact ⟨r, (), hc.sizes, hr⟩
    exact ⟨{ s with rx }, bind_eq_ok.mpr ⟨(rx, d), hrx, rfl⟩⟩
  | linkDownTsu cid =>
    obtain ⟨⟨rx, d⟩, hrx⟩ := GmaRxControl.linkDownTsu_total hs.conserved hs.cidList hr.2 hr.1
    exact ⟨{ s with rx }, bind_eq_ok.mpr ⟨(rx, d), hrx, rfl⟩⟩
  | link op => exact ⟨_, rfl⟩

end Steps

section Claim
variable {A other} {start s : RxSystem} {ops : List (RxOp δ)}

theorem split_ratio_conserved (hstart : start.Initial)
    (h : (machine A other).Reaches start ops s) :
    (s.rx.lastSplittingIndexList ≠ [] →
      s.rx.lastSplittingIndexList.sum = start.rx.splittingBurst ∧
        ∀ x ∈ s.rx.lastSplittingIndexList, x ≤ start.rx.splittingBurst) ∧
    (∀ op, s.Regular op → ∃ s', step A other s op = .ok s') ∧
    ∀ algorithm m, (machine A other).enabled s (.decide algorithm m) →
      ((machine A other).next s (.decide algorithm m)).rx.lastSplittingIndexList ≠ [] := by
  have hs := reaches_sound hstart h
  refine ⟨fun hne => ?_, fun op hr => step_total hs hstart.pos hr, ?_⟩
  · have hsum : s.rx.lastSplittingIndexList.sum = start.rx.splittingBurst :=
      (hs.conserved.sum hne).trans hs.splittingBurst
    refine ⟨hsum, fun x hx => ?_⟩
    rw [← hsum]
    exact List.le_sum_of_mem hx
  · rintro algorithm m ⟨hp, hok⟩
    simp only [machine]
    cases hstep : step A other s (.decide algorithm m) with
    | error e =>
      rw [hstep] at hok
      cases hok
    | ok s' =>
      simp only [step, bind_eq_ok] at hstep
      obtain ⟨⟨rx, d⟩, hrx, heq⟩ := hstep
      cases pure_eq_ok.mp heq
      exact (decide_conserved hrx hp.1 hp.2 hs.conserved).2.2

def wholeNumbers : DelayArith ℤ where
  zero := 0
  lt a b := a < b
  apart a b := a - b > 5
  close a b := a - b ≤ 5
  toInt a := a
  intLe a b := a ≤ b
  lossier a b := a > 2 * b
  lossy a := a > 0

def twoLinks (delays : List ℤ) : RxMeasurement ℤ where
  links := 2
  cidList := [0, 1]
  delayThisInterval := [true, true]
  delayList := delays
  minOwdLongTerm := [1, 1]
  lossRateList := [0, 0]

def noOther (s : GmaRxControl) : Except RxFault (GmaRxControl × SplittingDecision) := .ok (s, {})

def slowThenDown : List (RxOp ℤ) :=
  [.decide .delay (twoLinks [20, 5]), .link (.down .ctrFailed 0), .linkDownTsu 0]

def fourUnits : RxSystem where
  rx := { splittingBurst := 4 }
  linkState := { cidList := [0, 1] }

theorem split_ratio_conserved_slow_link :
    ((machine wholeNumbers noOther).exec fourUnits slowThenDown).rx.lastSplittingIndexList =
        [0, 4] ∧
      ∀ x ∈ ((machine wholeNumbers noOther).exec fourUnits
        slowThenDown).rx.lastSplittingIndexList, x ≤ 4 := by
  have hreach : (machine wholeNumbers noOther).Reaches fourUnits slowThenDown _ :=
    Machine.Permits.reaches (by decide)
  have hstart : fourUnits.Initial := ⟨rfl, rfl, rfl, by decide, by decide, by decide⟩
  exact ⟨by decide, ((split_ratio_conserved hstart hreach).1 (by decide)).2⟩

end Claim
end RxSystem
end NetGymSim.Gma

import NetGymSim.Lte.RlcAmSides

/-!
# The receiving window

The reception buffer holds whole PDUs from VR(R) on and below VR(H); VR(R) and VR(MS) are
missing. While the reordering timer runs VR(X) lies behind VR(R) and not behind VR(H).
-/

namespace NetGymSim.Lte
open NetGymSim.Lib
namespace LteRlcAm

def complete (s : LteRlcAm) (n : ℕ) : Bool :=
  match s.rxonBuffer n with
  | none => false
  | some entry => entry.pduComplete

theorem received_eq (s : LteRlcAm) (sn : SequenceNumber10) : s.received sn = s.complete sn.value :=
  rfl

/-- The order of the numbers, and where the buffered PDUs lie. -/
structure RxOrder (s : LteRlcAm) : Prop where
  vrR_base : s.vrR.modulusBase = s.vrR.value
  vrX_base : s.vrX.modulusBase = s.vrR.value
  vrMs_base : s.vrMs.modulusBase = s.vrR.value
  vrH_base : s.vrH.modulusBase = s.vrR.value
  vrMs_le : s.vrMs.dist ≤ s.vrH.dist
  vrH_le : s.vrH.dist ≤ amWindowSize
  buffered : ∀ n entry, s.rxonBuffer n = some entry →
    entry.pduComplete ∧ n < 1024 ∧ forward 1024 n s.vrR.value < s.vrH.dist

structure RxConsistent (s : LteRlcAm) : Prop extends RxOrder s where
  vrMr_base : s.vrMr.modulusBase = s.vrR.value
  vrMr_dist : s.vrMr.dist = amWindowSize
  front : ¬ s.complete s.vrR.value
  maximum : ¬ s.complete s.vrMs.value
  timed : s.reorderingTimer → 0 < s.vrX.dist ∧ s.vrX.dist ≤ s.vrH.dist

section Order
variable {s t : LteRlcAm} {sn : SequenceNumber10} {n : ℕ}

theorem complete_congr (h : t.rxSide = s.rxSide) (n : ℕ) : t.complete n = s.complete n := by
  have hbuffer : t.rxonBuffer = s.rxonBuffer := congrArg RxSide.rxonBuffer h
  unfold complete
  rw [hbuffer]

theorem RxOrder.congr (h : RxOrder s) (heq : t.rxSide = s.rxSide) : RxOrder t := by
  simp only [rxSide, RxSide.mk.injEq] at heq
  obtain ⟨hbuffer, hR, -, hX, hMs, hH, -⟩ := heq
  constructor
  case vrR_base => rw [hR]; exact h.vrR_base
  case vrX_base => rw [hR, hX]; exact h.vrX_base
  case vrMs_base => rw [hR, hMs]; exact h.vrMs_base
  case vrH_base => rw [hR, hH]; exact h.vrH_base
  case vrMs_le => rw [hMs, hH]; exact h.vrMs_le
  case vrH_le => rw [hH]; exact h.vrH_le
  case buffered => rw [hbuffer, hR, hH]; exact h.buffered

theorem RxConsistent.congr (h : RxConsistent s) (heq : t.rxSide = s.rxSide) : RxConsistent t := by
  have hcomplete := complete_congr heq
  have horder := h.toRxOrder.congr heq
  simp only [rxSide, RxSide.mk.injEq] at heq
  obtain ⟨-, hR, hMr, hX, hMs, hH, htimer⟩ := heq
  refine ⟨horder, ?_, ?_, ?_, ?_, ?_⟩
  case refine_1 => rw [hR, hMr]; exact h.vrMr_base
  case refine_2 => rw [hMr]; exact h.vrMr_dist
  case refine_3 => rw [hcomplete, hR]; exact h.front
  case refine_4 => rw [hcomplete, hMs]; exact h.maximum
  case refine_5 => rw [htimer, hX, hH]; exact h.timed

namespace RxOrder

theorem vrR_dist (h : RxOrder s) : s.vrR.dist = 0 :=
  SequenceNumber10.dist_eq_zero.mpr h.vrR_base.symm

theorem complete_below (h : RxOrder s) (hb : sn.modulusBase = s.vrR.value)
    (hc : s.complete sn.value) : sn.dist < s.vrH.dist := by
  unfold complete at hc
  cases hentry : s.rxonBuffer sn.value with
  | none =>
    rw [hentry] at hc
    cases hc
  | some entry =>
    have hbelow := (h.buffered _ _ hentry).2.2
    rw [← hb] at hbelow
    exact hbelow

/-! ### Moving over what has been received -/

theorem skipReceived (h : RxOrder s) (fuel : ℕ) (hb : sn.modulusBase = s.vrR.value)
    (hle : sn.dist ≤ s.vrH.dist) (hfuel : s.vrH.dist < sn.dist + fuel) :
    (s.skipReceived fuel sn).modulusBase = s.vrR.value ∧
      (s.skipReceived fuel sn).dist ≤ s.vrH.dist ∧
      ¬ s.complete (s.skipReceived fuel sn).value := by
  induction fuel generalizing sn with
  | zero => omega
  | succ fuel ih =>
    unfold LteRlcAm.skipReceived
    by_cases hc : s.received sn
    · rw [if_pos hc]
      have hlt := h.complete_below hb hc
      have hH := h.vrH_le
      unfold amWindowSize at hH
      have hsucc : sn.succ.dist = sn.dist + 1 := SequenceNumber10.dist_succ (by omega)
      exact ih hb (by omega) (by omega)
    · rw [if_neg hc]
      exact ⟨hb, hle, hc⟩

end RxOrder

/-! ### Placing a PDU -/

theorem place_spec (s : LteRlcAm) (sn : SequenceNumber10) (packet : List ℕ) :
    ∃ buffer entry, s.place sn packet = { s with rxonBuffer := buffer } ∧
      (∀ n, n ≠ sn.value → buffer n = s.rxonBuffer n) ∧ buffer sn.value = some entry ∧
      (entry.pduComplete ∨ s.rxonBuffer sn.value = some entry) := by
  unfold place
  cases hentry : s.rxonBuffer sn.value with
  | none =>
    refine ⟨_, ⟨[packet], true⟩, rfl, ?_, Function.update_self .., Or.inl rfl⟩
    intro n hn
    exact Function.update_of_ne hn ..
  | some entry => exact ⟨s.rxonBuffer, entry, rfl, fun _ _ => rfl, hentry, Or.inr rfl⟩

def raiseHighest (s : LteRlcAm) (sn : SequenceNumber10) : LteRlcAm :=
  if sn.ge s.vrH then { s with vrH := sn.add 1 } else s

theorem updateHighest_eq (s : LteRlcAm) (sn : SequenceNumber10) :
    s.updateHighest sn =
      { s.raiseHighest sn with
        vrMs := (s.raiseHighest sn).skipReceived 1024 (s.raiseHighest sn).vrMs } := rfl

theorem raiseHighest_spec (hH : s.vrH.modulusBase = s.vrR.value)
    (hb : sn.modulusBase = s.vrR.value) (hin : sn.dist < amWindowSize) :
    ∃ vrH, s.raiseHighest sn = { s with vrH := vrH } ∧ vrH.modulusBase = s.vrR.value ∧
      vrH.dist = max s.vrH.dist (sn.dist + 1) := by
  have hge := SequenceNumber10.ge_iff (hb.trans hH.symm)
  have hadd : (sn.add 1).dist = sn.dist + 1 := by
    unfold amWindowSize at hin
    exact SequenceNumber10.dist_add (by omega)
  unfold raiseHighest
  split_ifs with h
  · have hle := hge.mp h
    exact ⟨_, rfl, hb, by omega⟩
  · have hlt : ¬ s.vrH.dist ≤ sn.dist := fun hle => h (hge.mpr hle)
    exact ⟨s.vrH, rfl, hH, by omega⟩

def placed (s : LteRlcAm) (sn : SequenceNumber10) (packet : List ℕ) : LteRlcAm :=
  (s.place sn packet).raiseHighest sn

structure Placed (s : LteRlcAm) (sn : SequenceNumber10) (t : LteRlcAm) : Prop where
  order : RxOrder t
  vrR : t.vrR = s.vrR
  vrMr : t.vrMr = s.vrMr
  complete : ∀ n, t.complete n ↔ n = sn.value ∨ s.complete n
  timed : t.reorderingTimer → 0 < t.vrX.dist ∧ t.vrX.dist ≤ t.vrH.dist

theorem RxConsistent.placed (h : RxConsistent s) (hb : sn.modulusBase = s.vrR.value)
    (hin : sn.dist < amWindowSize) (packet : List ℕ) : Placed s sn (s.placed sn packet) := by
  obtain ⟨buffer, entry, hplace, hother, hself, hfull⟩ := s.place_spec sn packet
  have hdone : entry.pduComplete := by
    rcases hfull with hdone | hold
    · exact hdone
    · exact (h.buffered _ _ hold).1
  obtain ⟨vrH, hraise, hHbase, hHdist⟩ :=
    raiseHighest_spec (s := { s with rxonBuffer := buffer }) h.vrH_base hb hin
  have hHle : vrH.dist ≤ amWindowSize := by
    have := h.vrH_le
    dsimp only at hHdist
    omega
  unfold LteRlcAm.placed
  rw [hplace, hraise]
  dsimp only at hHdist
  refine ⟨⟨h.vrR_base, h.vrX_base, h.vrMs_base, hHbase, ?_, hHle, ?_⟩, rfl, rfl, ?_, ?_⟩
  · have hle := h.vrMs_le
    show s.vrMs.dist ≤ vrH.dist
    omega
  · intro n e hn
    show e.pduComplete ∧ n < 1024 ∧ forward 1024 n s.vrR.value < vrH.dist
    by_cases hv : n = sn.value
    · have he : e = entry := by
        rw [hv] at hn
        exact Option.some.inj (hn.symm.trans hself)
      have hdist : forward 1024 n s.vrR.value = sn.dist := by
        rw [hv, ← hb]
        rfl
      exact ⟨he ▸ hdone, hv ▸ sn.value_lt, by omega⟩
    · obtain ⟨h1, h2, h3⟩ := h.buffered n e ((hother n hv) ▸ hn)
      exact ⟨h1, h2, by omega⟩
  · intro n
    unfold LteRlcAm.complete
    dsimp only
    by_cases hv : n = sn.value
    · rw [hv, hself]
      exact iff_of_true hdone (Or.inl rfl)
    · rw [hother n hv]
      exact (or_iff_right hv).symm
  · intro htimer
    obtain ⟨hpos, hle⟩ := h.timed htimer
    show 0 < s.vrX.dist ∧ s.vrX.dist ≤ vrH.dist
    omega

theorem Placed.updateHighest {t : LteRlcAm} (ht : Placed s sn t) :
    Placed s sn { t with vrMs := t.skipReceived 1024 t.vrMs } ∧
      ¬ t.complete (t.skipReceived 1024 t.vrMs).value := by
  have h := ht.order
  have hH := h.vrH_le
  unfold amWindowSize at hH
  obtain ⟨hbase, hle, hmissing⟩ := h.skipReceived 1024 h.vrMs_base h.vrMs_le (by omega)
  generalize t.skipReceived 1024 t.vrMs = ms at hbase hle hmissing ⊢
  exact ⟨⟨⟨h.vrR_base, h.vrX_base, hbase, h.vrH_base, hle, h.vrH_le, h.buffered⟩, ht.vrR, ht.vrMr,
    ht.complete, ht.timed⟩, hmissing⟩

/-! ### Delivering in sequence -/

def withoutFront (s : LteRlcAm) : LteRlcAm :=
  let vrR := s.vrR.succ.setModulusBase s.vrR.succ
  { s with
    rxonBuffer := Function.update s.rxonBuffer s.vrR.value none
    vrR := vrR
    vrX := s.vrX.setModulusBase vrR
    vrMs := s.vrMs.setModulusBase vrR
    vrH := s.vrH.setModulusBase vrR }

theorem deliverFront_rxSide (s : LteRlcAm) (entry : PduBuffer) :
    (s.deliverFront entry).rxSide = s.withoutFront.rxSide := by
  unfold deliverFront reassembleAndDeliver
  cases ({} : LteRlcAmHeader).deserialize (entry.byteSegments.headD []) <;> rfl

theorem withoutFront_complete (s : LteRlcAm) (n : ℕ) :
    s.withoutFront.complete n ↔ n ≠ s.vrR.value ∧ s.complete n := by
  unfold withoutFront complete
  dsimp only
  by_cases hn : n = s.vrR.value
  · rw [hn, Function.update_self]
    simp
  · rw [Function.update_of_ne hn]
    exact (and_iff_right hn).symm

theorem RxOrder.withoutFront (h : RxOrder s) (hms : ¬ s.complete s.vrMs.value)
    (hfront : s.complete s.vrR.value) :
    RxOrder s.withoutFront ∧ s.withoutFront.vrMs.dist + 1 = s.vrMs.dist := by
  have hR := h.vrR_dist
  have hsucc : s.vrR.succ.dist = 1 := by rw [SequenceNumber10.dist_succ (by omega), hR]
  have hbase : s.vrR.succ.modulusBase = s.vrR.value := h.vrR_base
  have hne : s.vrMs.dist ≠ 0 := by
    intro hzero
    rw [SequenceNumber10.dist_eq_zero.mp hzero, h.vrMs_base] at hms
    exact hms hfront
  have hle := h.vrMs_le
  have hmsDist : (s.vrMs.setModulusBase s.vrR.succ).dist = s.vrMs.dist - 1 := by
    rw [SequenceNumber10.dist_setModulusBase (h.vrMs_base.trans hbase.symm), hsucc,
      if_pos (by omega)]
  have hHDist : (s.vrH.setModulusBase s.vrR.succ).dist = s.vrH.dist - 1 := by
    rw [SequenceNumber10.dist_setModulusBase (h.vrH_base.trans hbase.symm), hsucc,
      if_pos (by omega)]
  refine ⟨⟨rfl, rfl, rfl, rfl, ?_, ?_, ?_⟩, ?_⟩
  · show (s.vrMs.setModulusBase s.vrR.succ).dist ≤ (s.vrH.setModulusBase s.vrR.succ).dist
    omega
  · show (s.vrH.setModulusBase s.vrR.succ).dist ≤ amWindowSize
    have hH := h.vrH_le
    omega
  · intro n entry hn
    show entry.pduComplete ∧ n < 1024 ∧
      forward 1024 n s.vrR.succ.value < (s.vrH.setModulusBase s.vrR.succ).dist
    by_cases hv : n = s.vrR.value
    · have hnone : s.withoutFront.rxonBuffer n = none := by
        rw [hv]
        exact Function.update_self ..
      rw [hnone] at hn
      cases hn
    · have hold : s.rxonBuffer n = some entry := by
        rw [← hn]
        exact (Function.update_of_ne hv ..).symm
      obtain ⟨h1, h2, h3⟩ := h.buffered n entry hold
      refine ⟨h1, h2, ?_⟩
      have hlt := s.vrR.value_lt
      have hval : s.vrR.succ.value = (s.vrR.value + 1) % 1024 := rfl
      rw [hHDist, hval]
      unfold forward at h3 ⊢
      omega
  · show (s.vrMs.setModulusBase s.vrR.succ).dist + 1 = s.vrMs.dist
    omega

structure Delivered (s t : LteRlcAm) : Prop where
  order : RxOrder t
  front : ¬ t.complete t.vrR.value
  maximum : ¬ t.complete t.vrMs.value
  vrX : t.vrX.value = s.vrX.value
  vrH : t.vrH.value = s.vrH.value
  timer : t.reorderingTimer = s.reorderingTimer

theorem Delivered.stay (h : RxOrder s) (hms : ¬ s.complete s.vrMs.value)
    (hfront : ¬ s.complete s.vrR.value) : Delivered s s :=
  ⟨h, hfront, hms, rfl, rfl, rfl⟩

theorem RxOrder.deliverInSequence (h : RxOrder s) (hms : ¬ s.complete s.vrMs.value) (fuel : ℕ)
    (hfuel : s.vrMs.dist < fuel) : Delivered s (deliverInSequence fuel s) := by
  induction fuel generalizing s with
  | zero => omega
  | succ fuel ih =>
    unfold LteRlcAm.deliverInSequence
    cases hentry : s.rxonBuffer s.vrR.value with
    | none =>
      have hfront : ¬ s.complete s.vrR.value := by
        unfold complete
        rw [hentry]
        exact Bool.false_ne_true
      exact .stay h hms hfront
    | some entry =>
      have hcomplete : s.complete s.vrR.value = entry.pduComplete := by
        unfold complete
        rw [hentry]
      dsimp only
      split_ifs with hdone
      · rw [hdone] at hcomplete
        obtain ⟨horder, hdist⟩ := h.withoutFront hms hcomplete
        have hside := s.deliverFront_rxSide entry
        have hms' : ¬ (s.deliverFront entry).complete (s.deliverFront entry).vrMs.value := by
          have hvalue : (s.deliverFront entry).vrMs.value = s.vrMs.value :=
            congrArg (fun r => r.vrMs.value) hside
          rw [complete_congr hside, withoutFront_complete, hvalue]
          exact fun hc => hms hc.2
        have hlt : (s.deliverFront entry).vrMs.dist < fuel := by
          have hvrMs : (s.deliverFront entry).vrMs = s.withoutFront.vrMs :=
            congrArg RxSide.vrMs hside
          rw [hvrMs]
          omega
        have hrest := ih (horder.congr hside) hms' hlt
        refine ⟨hrest.order, hrest.front, hrest.maximum, hrest.vrX.trans ?_, hrest.vrH.trans ?_,
          hrest.timer.trans (congrArg RxSide.reorderingTimer hside)⟩
        · exact congrArg (fun r => r.vrX.value) hside
        · exact congrArg (fun r => r.vrH.value) hside
      · apply Delivered.stay h hms
        rw [hcomplete]
        exact hdone

/-! ### The reordering timer -/

theorem isInside_iff (hR : s.vrR.modulusBase = s.vrR.value) (hMr : s.vrMr.modulusBase = s.vrR.value)
    (hMrDist : s.vrMr.dist = amWindowSize) (hb : sn.modulusBase = s.vrR.value) :
    s.isInsideReceivingWindow sn ↔ sn.dist < amWindowSize := by
  have hzero : s.vrR.dist = 0 := SequenceNumber10.dist_eq_zero.mpr hR.symm
  unfold isInsideReceivingWindow
  dsimp only
  rw [SequenceNumber10.setModulusBase_eq_self hR, SequenceNumber10.setModulusBase_eq_self hMr,
    SequenceNumber10.setModulusBase_eq_self hb, decide_eq_true_iff,
    SequenceNumber10.le_iff (hR.trans hb.symm), SequenceNumber10.lt_iff (hb.trans hMr.symm), hzero,
    hMrDist]
  exact and_iff_right (Nat.zero_le _)

def Near (s : LteRlcAm) : Prop :=
  s.reorderingTimer → forward 1024 s.vrH.value s.vrX.value < amWindowSize

theorem RxOrder.near (h : RxOrder s)
    (htimed : s.reorderingTimer → 0 < s.vrX.dist ∧ s.vrX.dist ≤ s.vrH.dist) : Near s := by
  intro htimer
  obtain ⟨hpos, hle⟩ := htimed htimer
  have hH := h.vrH_le
  have hXval := s.vrX.value_eq
  have hHval := s.vrH.value_eq
  rw [h.vrX_base] at hXval
  rw [h.vrH_base] at hHval
  unfold amWindowSize at hH ⊢
  unfold forward
  omega

/-- The timer that is not stopped has VR(X) between VR(R) and VR(H), wherever VR(R) has gone. -/
theorem RxOrder.stopReordering (h : RxOrder s) (hMr : s.vrMr.modulusBase = s.vrR.value)
    (hMrDist : s.vrMr.dist = amWindowSize) (hnear : Near s) :
    ∃ running, s.stopReordering = { s with reorderingTimer := running } ∧
      (running → 0 < s.vrX.dist ∧ s.vrX.dist ≤ s.vrH.dist) := by
  unfold LteRlcAm.stopReordering
  by_cases htimer : s.reorderingTimer
  · have hinside := isInside_iff h.vrR_base hMr hMrDist h.vrX_base
    rw [if_pos htimer]
    by_cases hstop : s.vrX.value = s.vrR.value ∨
        (¬ s.isInsideReceivingWindow s.vrX ∧ s.vrX.value ≠ s.vrMr.value)
    · rw [if_pos hstop]
      exact ⟨false, rfl, fun hfalse => by cases hfalse⟩
    · rw [if_neg hstop]
      refine ⟨s.reorderingTimer, rfl, fun _ => ?_⟩
      rw [hinside] at hstop
      obtain ⟨hne, hout⟩ := not_or.mp hstop
      rw [← SequenceNumber10.dist_eq_iff (h.vrX_base.trans h.vrR_base.symm), h.vrR_dist] at hne
      rw [ne_eq, ← SequenceNumber10.dist_eq_iff (h.vrX_base.trans hMr.symm), hMrDist] at hout
      have hfar := hnear htimer
      have hH := h.vrH_le
      have hXval := s.vrX.value_eq
      have hHval := s.vrH.value_eq
      rw [h.vrX_base] at hXval
      rw [h.vrH_base] at hHval
      unfold amWindowSize at hH hfar hout
      unfold forward at hfar
      omega
  · rw [if_neg htimer]
    exact ⟨s.reorderingTimer, rfl, fun hrun => absurd hrun htimer⟩

theorem RxOrder.reordered (h : RxOrder s) (hMr : s.vrMr.modulusBase = s.vrR.value)
    (hMrDist : s.vrMr.dist = amWindowSize) (hfront : ¬ s.complete s.vrR.value)
    (hmax : ¬ s.complete s.vrMs.value) (hnear : Near s) :
    RxConsistent s.stopReordering.startReordering := by
  obtain ⟨running, hstop, htimed⟩ := h.stopReordering hMr hMrDist hnear
  have hgt := SequenceNumber10.gt_iff (h.vrH_base.trans h.vrR_base.symm)
  rw [h.vrR_dist] at hgt
  rw [hstop]
  unfold startReordering
  dsimp only
  split_ifs with hrun hbehind
  · exact ⟨⟨h.vrR_base, h.vrX_base, h.vrMs_base, h.vrH_base, h.vrMs_le, h.vrH_le, h.buffered⟩,
      hMr, hMrDist, hfront, hmax, htimed⟩
  · refine ⟨⟨h.vrR_base, h.vrH_base, h.vrMs_base, h.vrH_base, h.vrMs_le, h.vrH_le, h.buffered⟩,
      hMr, hMrDist, hfront, hmax, fun _ => ?_⟩
    exact ⟨hgt.mp hbehind, le_refl _⟩
  · exact ⟨⟨h.vrR_base, h.vrX_base, h.vrMs_base, h.vrH_base, h.vrMs_le, h.vrH_le, h.buffered⟩,
      hMr, hMrDist, hfront, hmax, htimed⟩

/-! ### The events -/

theorem RxConsistent.acceptData (h : RxConsistent s) (hb : sn.modulusBase = s.vrR.value)
    (hin : sn.dist < amWindowSize) (packet : List ℕ) : RxConsistent (s.acceptData sn packet) := by
  obtain ⟨hplaced, hmax⟩ := (h.placed hb hin packet).updateHighest
  unfold LteRlcAm.acceptData
  rw [updateHighest_eq]
  show RxConsistent (updateLowest { s.placed sn packet with
    vrMs := (s.placed sn packet).skipReceived 1024 (s.placed sn packet).vrMs }
      sn).stopReordering.startReordering
  generalize ht : { s.placed sn packet with
    vrMs := (s.placed sn packet).skipReceived 1024 (s.placed sn packet).vrMs } = t at hplaced
  have hmax' : ¬ t.complete t.vrMs.value := by
    rw [← ht]
    exact hmax
  have horder := hplaced.order
  have hnear := horder.near hplaced.timed
  have hH := horder.vrH_le
  have hMs := horder.vrMs_le
  unfold updateLowest
  rw [received_eq]
  by_cases hfirst : sn.value = t.vrR.value ∧ t.complete sn.value
  · rw [if_pos hfirst]
    unfold amWindowSize at hH
    have hdeliver := horder.deliverInSequence hmax' 1024 (by omega)
    generalize deliverInSequence 1024 t = u at hdeliver
    have horder' := hdeliver.order
    dsimp only
    have hMrDist : (u.vrR.add amWindowSize).dist = amWindowSize := by
      rw [SequenceNumber10.dist_add (by rw [horder'.vrR_dist]; decide), horder'.vrR_dist]
      exact Nat.zero_add _
    have hMr : (u.vrR.add amWindowSize).modulusBase = u.vrR.value := by
      rw [SequenceNumber10.add_modulusBase]
      exact horder'.vrR_base
    generalize u.vrR.add amWindowSize = vrMr at hMr hMrDist ⊢
    refine RxOrder.reordered ⟨horder'.vrR_base, horder'.vrX_base, horder'.vrMs_base,
      horder'.vrH_base, horder'.vrMs_le, horder'.vrH_le, horder'.buffered⟩ hMr hMrDist
      hdeliver.front hdeliver.maximum ?_
    intro htimer
    show forward 1024 u.vrH.value u.vrX.value < amWindowSize
    rw [hdeliver.vrH, hdeliver.vrX]
    exact hnear (hdeliver.timer ▸ htimer)
  · rw [if_neg hfirst]
    have hfront : ¬ t.complete t.vrR.value := by
      intro hc
      rcases (hplaced.complete _).mp hc with heq | hold
      · exact hfirst ⟨heq.symm, heq ▸ hc⟩
      · rw [hplaced.vrR] at hold
        exact h.front hold
    have hMr : t.vrMr.modulusBase = t.vrR.value := by
      rw [hplaced.vrMr, hplaced.vrR]
      exact h.vrMr_base
    have hMrDist : t.vrMr.dist = amWindowSize := by
      rw [hplaced.vrMr]
      exact h.vrMr_dist
    exact horder.reordered hMr hMrDist hfront hmax' hnear

theorem RxConsistent.setWindowBases (h : RxConsistent s) : s.setWindowBases = s := by
  unfold LteRlcAm.setWindowBases
  rw [SequenceNumber10.setModulusBase_eq_self h.vrR_base,
    SequenceNumber10.setModulusBase_eq_self h.vrMr_base]

theorem RxConsistent.receiveData (h : RxConsistent s) (header : LteRlcAmHeader)
    (packet : List ℕ) : RxConsistent (s.receiveData header packet) := by
  have hside := (s.polled_sides header).2
  have hpolled := h.congr hside
  have hR : (s.polled header).vrR = s.vrR := congrArg RxSide.vrR hside
  have hb : (s.sequenceNumberOf header).modulusBase = (s.polled header).vrR.value := by
    rw [hR]
    rfl
  rw [receiveData_eq, hpolled.setWindowBases]
  split_ifs with hinside
  · rw [isInside_iff hpolled.vrR_base hpolled.vrMr_base hpolled.vrMr_dist hb] at hinside
    exact hpolled.acceptData hb hinside packet
  · exact hpolled

theorem RxConsistent.expireReorderingTimer (h : RxConsistent s) (hrun : s.reorderingTimer) :
    RxConsistent s.expireReorderingTimer := by
  obtain ⟨hpos, hle⟩ := h.timed hrun
  have hH := h.vrH_le
  unfold amWindowSize at hH
  obtain ⟨hbase, hmsLe, hmissing⟩ := h.skipReceived 1024 h.vrX_base hle (by omega)
  have hgt := SequenceNumber10.gt_iff (h.vrH_base.trans hbase.symm)
  unfold LteRlcAm.expireReorderingTimer
  dsimp only
  generalize s.skipReceived 1024 s.vrX = ms at hbase hmsLe hmissing hgt ⊢
  split_ifs with hmore
  · refine ⟨⟨h.vrR_base, h.vrH_base, hbase, h.vrH_base, hmsLe, h.vrH_le, h.buffered⟩, h.vrMr_base,
      h.vrMr_dist, h.front, hmissing, fun _ => ?_⟩
    have hlt := hgt.mp hmore
    show 0 < s.vrH.dist ∧ s.vrH.dist ≤ s.vrH.dist
    omega
  · exact ⟨⟨h.vrR_base, h.vrX_base, hbase, h.vrH_base, hmsLe, h.vrH_le, h.buffered⟩, h.vrMr_base,
      h.vrMr_dist, h.front, hmissing, fun hfalse => by cases hfalse⟩

theorem RxConsistent.next (h : RxConsistent s) (e : Event) (he : machine.enabled s e) :
    RxConsistent (s.next e) := by
  cases e with
  | transmitPdcpPdu p => exact h.congr (s.doTransmitPdcpPdu_sides p).1
  | notifyTxOpportunity bytes => exact h.congr (s.doNotifyTxOpportunity_rxSide bytes)
  | receivePdu packet =>
    show RxConsistent (s.doReceivePdu packet)
    unfold doReceivePdu
    cases ({} : LteRlcAmHeader).deserialize packet with
    | none => exact h
    | some read =>
      dsimp only
      split_ifs with hdata
      · exact h.receiveData read.1 packet
      · exact h.congr (s.receiveStatus_sides read.1).1
  | expireReorderingTimer => exact h.expireReorderingTimer he
  | expirePollRetransmitTimer => exact h.congr s.expirePollRetransmitTimer_sides.1
  | expireStatusProhibitTimer => exact h.congr rfl
  | expireRbsTimer =>
    apply h.congr
    show s.expireRbsTimer.rxSide = s.rxSide
    unfold expireRbsTimer
    split_ifs <;> rfl

theorem RxConsistent.initial (config : RlcAmConfig) : RxConsistent (initial config) where
  vrR_base := rfl
  vrX_base := rfl
  vrMs_base := rfl
  vrH_base := rfl
  vrMs_le := le_refl _
  vrH_le := by
    show (SequenceNumber10.ofValue 0).dist ≤ amWindowSize
    decide
  buffered := fun _ _ hfalse => by cases hfalse
  vrMr_base := rfl
  vrMr_dist := by
    show (SequenceNumber10.ofValue amWindowSize).dist = amWindowSize
    decide
  front := Bool.false_ne_true
  maximum := Bool.false_ne_true
  timed := fun hfalse => by cases hfalse

theorem RxConsistent.of_reaches {config : RlcAmConfig} {es : List Event}
    (h : machine.Reaches (LteRlcAm.initial config) es s) : RxConsistent s := by
  apply Machine.Reaches.invariant (P := RxConsistent) (initial config) _ h
  intro s e hs he
  exact hs.next e he

end Order
end LteRlcAm
end NetGymSim.Lte

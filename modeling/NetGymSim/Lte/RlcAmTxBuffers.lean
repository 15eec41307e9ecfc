import NetGymSim.Lib.StoreSizes
import NetGymSim.Lte.RlcAmSides

/-!
# The buffers of transmitted PDUs

A PDU that was sent and not acknowledged yet is in one of two arrays: among the transmitted PDUs
or among those to be sent again. Sending, a NACK, the expiry of the poll timer and an
acknowledgement move it, each with the two sizes. The numbers that have a PDU are those from
VT(A) on to VT(S).
-/

namespace NetGymSim.Lte
open NetGymSim.Lib
namespace LteRlcAm

def InFlight (s : LteRlcAm) (n : ℕ) : Prop :=
  n < 1024 ∧ forward 1024 n s.vtA.value < forward 1024 s.vtS.value s.vtA.value

def exchange (s : LteRlcAm) (n : ℕ) (txed retx : Option (List ℕ)) : LteRlcAm :=
  { s with
    txedBuffer := Function.update s.txedBuffer n txed
    txedBufferSize :=
      s.txedBufferSize + cellSize List.length txed - cellSize List.length (s.txedBuffer n)
    retxBuffer := Function.update s.retxBuffer n retx
    retxBufferSize :=
      s.retxBufferSize + cellSize List.length retx - cellSize List.length (s.retxBuffer n) }

structure TxConsistent (s : LteRlcAm) : Prop where
  vtA_base : s.vtA.modulusBase = s.vtA.value
  vtS_base : s.vtS.modulusBase = s.vtA.value
  vtMs_base : s.vtMs.modulusBase = s.vtA.value
  vtMs_dist : s.vtMs.dist = amWindowSize
  vtS_dist : s.vtS.dist ≤ amWindowSize
  txedSize : s.txedBufferSize = storeSize List.length 1024 s.txedBuffer
  retxSize : s.retxBufferSize = storeSize List.length 1024 s.retxBuffer
  once : ∀ n, s.txedBuffer n = none ∨ s.retxBuffer n = none
  outside : ∀ n, ¬ s.InFlight n → s.txedBuffer n = none ∧ s.retxBuffer n = none

namespace TxConsistent
variable {s t : LteRlcAm} {n : ℕ} {pdu : List ℕ} {sn : SequenceNumber10}

theorem inFlight_iff (h : TxConsistent s) :
    s.InFlight n ↔ n < 1024 ∧ forward 1024 n s.vtA.value < s.vtS.dist := by
  unfold InFlight SequenceNumber10.dist
  rw [h.vtS_base]

theorem inFlight_value (h : TxConsistent s) (hb : sn.modulusBase = s.vtA.value) :
    s.InFlight sn.value ↔ sn.dist < s.vtS.dist := by
  rw [h.inFlight_iff, ← hb]
  exact and_iff_right sn.value_lt

theorem vtA_dist (h : TxConsistent s) : s.vtA.dist = 0 :=
  SequenceNumber10.dist_eq_zero.mpr h.vtA_base.symm

theorem txed_inFlight (h : TxConsistent s) (hn : s.txedBuffer n = some pdu) : s.InFlight n := by
  by_contra hout
  rw [(h.outside n hout).1] at hn
  cases hn

theorem retx_inFlight (h : TxConsistent s) (hn : s.retxBuffer n = some pdu) : s.InFlight n := by
  by_contra hout
  rw [(h.outside n hout).2] at hn
  cases hn

theorem congr (h : TxConsistent s) (heq : t.txSide = s.txSide) : TxConsistent t := by
  simp only [txSide, TxSide.mk.injEq] at heq
  obtain ⟨-, -, -, hretx, hretxSize, htxed, htxedSize, hA, hMs, hS⟩ := heq
  constructor
  case vtA_base => rw [hA]; exact h.vtA_base
  case vtS_base => rw [hA, hS]; exact h.vtS_base
  case vtMs_base => rw [hA, hMs]; exact h.vtMs_base
  case vtMs_dist => rw [hMs]; exact h.vtMs_dist
  case vtS_dist => rw [hS]; exact h.vtS_dist
  case txedSize => rw [htxedSize, htxed]; exact h.txedSize
  case retxSize => rw [hretxSize, hretx]; exact h.retxSize
  case once => rw [htxed, hretx]; exact h.once
  case outside =>
    unfold InFlight
    rw [htxed, hretx, hA, hS]
    exact h.outside

/-! ### Moving PDUs -/

theorem exchange (h : TxConsistent s) (hin : s.InFlight n) {txed retx : Option (List ℕ)}
    (hone : txed = none ∨ retx = none) : TxConsistent (s.exchange n txed retx) := by
  have htxed := @storeSize_update _ List.length _ _ s.txedBuffer hin.1 txed
  have hretx := @storeSize_update _ List.length _ _ s.retxBuffer hin.1 retx
  constructor
  case vtA_base => exact h.vtA_base
  case vtS_base => exact h.vtS_base
  case vtMs_base => exact h.vtMs_base
  case vtMs_dist => exact h.vtMs_dist
  case vtS_dist => exact h.vtS_dist
  case txedSize =>
    show s.txedBufferSize + _ - _ = storeSize List.length 1024 (Function.update s.txedBuffer n txed)
    rw [h.txedSize]
    omega
  case retxSize =>
    show s.retxBufferSize + _ - _ = storeSize List.length 1024 (Function.update s.retxBuffer n retx)
    rw [h.retxSize]
    omega
  case once =>
    intro m
    show Function.update s.txedBuffer n txed m = none ∨ Function.update s.retxBuffer n retx m = none
    by_cases hm : m = n
    · rw [hm, Function.update_self, Function.update_self]
      exact hone
    · rw [Function.update_of_ne hm, Function.update_of_ne hm]
      exact h.once m
  case outside =>
    intro m hm
    have hne : m ≠ n := fun heq => hm (heq ▸ hin)
    show Function.update s.txedBuffer n txed m = none ∧ Function.update s.retxBuffer n retx m = none
    rw [Function.update_of_ne hne, Function.update_of_ne hne]
    exact h.outside m hm

theorem retx_none (h : TxConsistent s) (hn : s.txedBuffer n = some pdu) : s.retxBuffer n = none :=
  (h.once n).resolve_left (by rw [hn]; simp)

theorem txed_none (h : TxConsistent s) (hn : s.retxBuffer n = some pdu) : s.txedBuffer n = none :=
  (h.once n).resolve_right (by rw [hn]; simp)

theorem nack (h : TxConsistent s) (n : ℕ) : TxConsistent (s.nack n) := by
  unfold LteRlcAm.nack
  cases hn : s.txedBuffer n with
  | none => exact h
  | some pdu =>
    have hmove : s.moveToRetx n pdu = s.exchange n none (some pdu) := by
      simp only [moveToRetx, LteRlcAm.exchange, hn, h.retx_none hn, cellSize_none, cellSize_some,
        Nat.add_zero, Nat.sub_zero]
    dsimp only
    rw [hmove]
    exact h.exchange (h.txed_inFlight hn) (Or.inl rfl)

theorem moveToTxed (h : TxConsistent s) (hn : s.retxBuffer n = some pdu) :
    TxConsistent (s.moveToTxed n pdu) := by
  have hmove : s.moveToTxed n pdu = s.exchange n (some pdu) none := by
    simp only [LteRlcAm.moveToTxed, LteRlcAm.exchange, hn, h.txed_none hn, cellSize_none,
      cellSize_some, Nat.add_zero, Nat.sub_zero]
  rw [hmove]
  exact h.exchange (h.retx_inFlight hn) (Or.inr rfl)

theorem ack_eq (h : TxConsistent s) (n : ℕ) : s.ack n = s.exchange n none none := by
  unfold LteRlcAm.ack
  cases hn : s.txedBuffer n with
  | none =>
    have htxed : Function.update s.txedBuffer n none = s.txedBuffer :=
      Function.update_eq_self_iff.mpr hn.symm
    cases hm : s.retxBuffer n with
    | none =>
      have hretx : Function.update s.retxBuffer n none = s.retxBuffer :=
        Function.update_eq_self_iff.mpr hm.symm
      simp only [hm, LteRlcAm.exchange, htxed, hretx, hn, cellSize_none, Nat.add_zero, Nat.sub_zero]
    | some pdu =>
      simp only [hm, LteRlcAm.exchange, htxed, hn, cellSize_none, cellSize_some, Nat.add_zero,
        Nat.sub_zero]
  | some pdu =>
    have hm := h.retx_none hn
    have hretx : Function.update s.retxBuffer n none = s.retxBuffer :=
      Function.update_eq_self_iff.mpr hm.symm
    simp only [hm, LteRlcAm.exchange, hretx, hn, cellSize_none, cellSize_some, Nat.add_zero,
      Nat.sub_zero]

theorem ack (h : TxConsistent s) (hin : s.InFlight n) : TxConsistent (s.ack n) := by
  rw [h.ack_eq n]
  exact h.exchange hin (Or.inl rfl)

/-! ### Moving the numbers -/

theorem advanceVtA (h : TxConsistent s) (hgone : s.txedBuffer s.vtA.value = none)
    (hgone' : s.retxBuffer s.vtA.value = none) (hsome : 0 < s.vtS.dist) :
    TxConsistent s.advanceVtA := by
  have hA := h.vtA_dist
  have hS := h.vtS_dist
  have hsucc : s.vtA.succ.dist = 1 := by rw [SequenceNumber10.dist_succ (by omega), hA]
  have hbase : s.vtA.succ.modulusBase = s.vtA.value := h.vtA_base
  have hnew : (s.vtS.setModulusBase s.vtA.succ).dist = s.vtS.dist - 1 := by
    rw [SequenceNumber10.dist_setModulusBase (h.vtS_base.trans hbase.symm), hsucc,
      if_pos (by omega)]
  constructor
  case vtA_base => rfl
  case vtS_base => rfl
  case vtMs_base => rfl
  case vtMs_dist =>
    show ((s.vtA.succ.add amWindowSize).setModulusBase s.vtA.succ).dist = amWindowSize
    have hadd : (s.vtA.succ.add amWindowSize).dist = 1 + amWindowSize := by
      rw [SequenceNumber10.dist_add (by rw [hsucc]; decide), hsucc]
    rw [SequenceNumber10.dist_setModulusBase (by rfl), hadd, hsucc]
    rfl
  case vtS_dist =>
    show (s.vtS.setModulusBase s.vtA.succ).dist ≤ amWindowSize
    omega
  case txedSize => exact h.txedSize
  case retxSize => exact h.retxSize
  case once => exact h.once
  case outside =>
    intro n hn
    by_cases hv : n = s.vtA.value
    · exact ⟨hv ▸ hgone, hv ▸ hgone'⟩
    · apply h.outside n
      intro hin
      apply hn
      have hlt := (h.inFlight_iff.mp hin)
      refine ⟨hin.1, ?_⟩
      show forward 1024 n s.vtA.succ.value < (s.vtS.setModulusBase s.vtA.succ).dist
      have hv' := s.vtA.value_lt
      have hval : s.vtA.succ.value = (s.vtA.value + 1) % 1024 := rfl
      rw [hnew, hval]
      unfold forward at hlt ⊢
      omega

theorem vtS_succ_dist (h : TxConsistent s) : s.vtS.succ.dist = s.vtS.dist + 1 := by
  have hS := h.vtS_dist
  unfold amWindowSize at hS
  exact SequenceNumber10.dist_succ (by omega)

theorem buildPdu (h : TxConsistent s) (hroom : s.vtS.value ≠ s.vtMs.value) (bytes : ℕ)
    (first : TxPdu) (behind : List TxPdu) : TxConsistent (s.buildPdu bytes first behind).1 := by
  have hside := s.buildPdu_txSide bytes first behind
  generalize (s.buildPdu bytes first behind).2 = pdu at hside
  generalize (s.buildPdu bytes first behind).1 = t at hside ⊢
  simp only [txSide, TxSide.mk.injEq] at hside
  obtain ⟨-, -, -, hretx, hretxSize, htxed, htxedSize, hA, hMs, hS⟩ := hside
  have hnew := h.vtS_succ_dist
  have hlt : s.vtS.dist < amWindowSize := by
    have hne : s.vtS.dist ≠ s.vtMs.dist := fun heq =>
      hroom ((SequenceNumber10.dist_eq_iff (h.vtS_base.trans h.vtMs_base.symm)).mp heq)
    rw [h.vtMs_dist] at hne
    have hle := h.vtS_dist
    omega
  have hout : ¬ s.InFlight s.vtS.value := by
    rw [h.inFlight_value h.vtS_base]
    exact Nat.lt_irrefl _
  obtain ⟨htxedNone, hretxNone⟩ := h.outside _ hout
  constructor
  case vtA_base => rw [hA]; exact h.vtA_base
  case vtS_base => rw [hA, hS]; exact h.vtS_base
  case vtMs_base => rw [hA, hMs]; exact h.vtMs_base
  case vtMs_dist => rw [hMs]; exact h.vtMs_dist
  case vtS_dist =>
    rw [hS, hnew]
    exact hlt
  case txedSize =>
    rw [htxedSize, htxed, h.txedSize]
    exact (storeSize_put s.vtS.value_lt htxedNone pdu).symm
  case retxSize => rw [hretxSize, hretx]; exact h.retxSize
  case once =>
    intro n
    rw [htxed, hretx]
    by_cases hn : n = s.vtS.value
    · rw [hn]
      exact Or.inr hretxNone
    · rw [Function.update_of_ne hn]
      exact h.once n
  case outside =>
    intro n hn
    have hmore : ∀ m, s.InFlight m ∨ m = s.vtS.value → t.InFlight m := by
      intro m hm
      unfold InFlight
      rw [hA, hS, ← h.vtS_base]
      show m < 1024 ∧ forward 1024 m s.vtS.modulusBase < s.vtS.succ.dist
      rw [hnew, h.vtS_base]
      rcases hm with hm | rfl
      · obtain ⟨hlt, hfor⟩ := h.inFlight_iff.mp hm
        exact ⟨hlt, by omega⟩
      · refine ⟨s.vtS.value_lt, ?_⟩
        rw [← h.vtS_base]
        exact Nat.lt_succ_self _
    have hne : n ≠ s.vtS.value := fun heq => hn (hmore n (Or.inr heq))
    rw [htxed, hretx, Function.update_of_ne hne]
    exact h.outside n fun hin => hn (hmore n (Or.inl hin))

/-! ### The search for a retransmission -/

theorem findRetx_found (h : TxConsistent s) {k : ℕ} (hk : s.retxBuffer k = some pdu) (fuel : ℕ)
    (hb : sn.modulusBase = s.vtA.value) (hle : sn.dist ≤ forward 1024 k s.vtA.value)
    (hfuel : forward 1024 k s.vtA.value < sn.dist + fuel) :
    ∃ sn' pdu', s.findRetx fuel sn = some (sn', pdu') := by
  induction fuel generalizing sn with
  | zero => omega
  | succ fuel ih =>
    obtain ⟨hk1024, hin⟩ := h.inFlight_iff.mp (h.retx_inFlight hk)
    have hlt : sn.lt s.vtS = true :=
      (SequenceNumber10.lt_iff (hb.trans h.vtS_base.symm)).mpr (by omega)
    unfold findRetx
    rw [if_neg (not_not.mpr hlt)]
    cases hsn : s.retxBuffer sn.value with
    | some found => exact ⟨_, _, rfl⟩
    | none =>
      have hne : sn.dist ≠ forward 1024 k s.vtA.value := by
        intro heq
        have hval := sn.value_eq
        rw [heq, hb, ← Nat.mod_eq_of_lt s.vtA.value_lt, Nat.mod_add_mod,
          residue_forward s.vtA.value hk1024] at hval
        rw [hval, hk] at hsn
        cases hsn
      have hS := h.vtS_dist
      unfold amWindowSize at hS
      have hsucc : sn.succ.dist = sn.dist + 1 := SequenceNumber10.dist_succ (by omega)
      exact ih hb (by omega) (by omega)

theorem findRetx_isSome (h : TxConsistent s) (hpos : 0 < s.retxBufferSize) :
    ∃ sn pdu, s.findRetx 1024 s.vtA = some (sn, pdu) := by
  rw [h.retxSize] at hpos
  obtain ⟨k, pdu, hk, hsome⟩ := exists_of_storeSize_pos hpos
  have hlt := forward_lt (show 0 < 1024 by decide) k s.vtA.value
  apply h.findRetx_found hsome 1024 h.vtA_base
  · rw [h.vtA_dist]
    exact Nat.zero_le _
  · omega

end TxConsistent

theorem findRetx_mem {s : LteRlcAm} {fuel : ℕ} {sn : SequenceNumber10} {n : ℕ} {pdu : List ℕ}
    (h : s.findRetx fuel sn = some (n, pdu)) : s.retxBuffer n = some pdu := by
  induction fuel generalizing sn with
  | zero => cases h
  | succ fuel ih =>
    unfold findRetx at h
    split_ifs at h with hlt
    cases hsn : s.retxBuffer sn.value with
    | some found =>
      rw [hsn] at h
      cases h
      exact hsn
    | none =>
      rw [hsn] at h
      exact ih h

end LteRlcAm
end NetGymSim.Lte

import NetGymSim.Lte.RlcUm

/-!
# The reordering window

The window ends at VR(UH). The reception buffer holds PDUs behind VR(UR) and before VR(UH), and
the reordering timer runs while VR(UR) is before VR(UH).
-/

namespace NetGymSim.Lte
open NetGymSim.Lib
namespace LteRlcUm

def windowStart (s : LteRlcUm) : ℕ := (s.vrUh.value + 512) % 1024

/-- How far a number lies behind the start of the window; the window has the first 512. -/
def offset (s : LteRlcUm) (n : ℕ) : ℕ := forward 1024 n s.windowStart

structure ReceiveInvariant (s : LteRlcUm) : Prop where
  front : s.rxBuffer s.vrUr.value = none
  inside : ∀ n p, s.rxBuffer n = some p → n < 1024 ∧ s.offset n < umWindowSize
  below : s.vrUr.value < 1024 ∧ s.vrUx.value < 1024 ∧ s.vrUh.value < 1024
  running : s.reorderingTimer ↔ s.offset s.vrUr.value < umWindowSize

structure RxConsistent (s : LteRlcUm) : Prop where
  front_le : s.offset s.vrUr.value ≤ umWindowSize
  buffered : ∀ n p, s.rxBuffer n = some p →
    n < 1024 ∧ s.offset s.vrUr.value < s.offset n ∧ s.offset n < umWindowSize
  running : s.reorderingTimer ↔ s.offset s.vrUr.value < umWindowSize
  timed : s.reorderingTimer →
    s.offset s.vrUr.value < s.offset s.vrUx.value ∧ s.offset s.vrUx.value ≤ umWindowSize
  bases : s.reorderingTimer →
    s.vrUr.modulusBase = s.windowStart ∧ s.vrUx.modulusBase = s.windowStart ∧
      s.vrUh.modulusBase = s.windowStart

section Window
variable {s t : LteRlcUm} {sn : SequenceNumber10} {n : ℕ}

theorem windowStart_lt (s : LteRlcUm) : s.windowStart < 1024 := Nat.mod_lt _ (by decide)

theorem sub_value (s : LteRlcUm) : (s.vrUh.sub umWindowSize).value = s.windowStart := rfl

theorem offset_lt (s : LteRlcUm) (n : ℕ) : s.offset n < 1024 := forward_lt (by decide) n _

theorem offset_vrUh (s : LteRlcUm) : s.offset s.vrUh.value = umWindowSize := by
  have hlt := s.vrUh.value_lt
  unfold offset windowStart forward umWindowSize
  omega

theorem offset_inj {m n : ℕ} (hm : m < 1024) (hn : n < 1024) (h : s.offset m = s.offset n) :
    m = n := by
  have hlt := s.windowStart_lt
  unfold offset forward at h
  omega

theorem dist_eq_offset (hb : sn.modulusBase = s.windowStart) : sn.dist = s.offset sn.value := by
  unfold SequenceNumber10.dist offset
  rw [hb]

theorem isInside_iff (s : LteRlcUm) (sn : SequenceNumber10) :
    s.isInsideReorderingWindow sn ↔ s.offset sn.value < umWindowSize := by
  have hvalue := s.sub_value
  unfold isInsideReorderingWindow
  dsimp only
  generalize s.vrUh.sub umWindowSize = base at hvalue ⊢
  have hstart : ((s.vrUh.setModulusBase base).sub umWindowSize).dist = 0 := by
    rw [SequenceNumber10.dist_eq_zero, SequenceNumber10.sub_modulusBase,
      SequenceNumber10.setModulusBase_modulusBase, SequenceNumber10.sub_value,
      SequenceNumber10.setModulusBase_value, hvalue]
    rfl
  have hhigh : (s.vrUh.setModulusBase base).dist = umWindowSize := by
    rw [dist_eq_offset hvalue, SequenceNumber10.setModulusBase_value]
    exact s.offset_vrUh
  have hsn : (sn.setModulusBase base).dist = s.offset sn.value := dist_eq_offset hvalue
  rw [decide_eq_true_iff, SequenceNumber10.le_iff (by rw [SequenceNumber10.sub_modulusBase]; rfl),
    SequenceNumber10.lt_iff (by rfl), hstart, hhigh, hsn]
  exact and_iff_right (Nat.zero_le _)

theorem RxConsistent.receiveInvariant (h : RxConsistent s) : ReceiveInvariant s where
  front := by
    cases hentry : s.rxBuffer s.vrUr.value with
    | none => rfl
    | some p => exact absurd (h.buffered _ p hentry).2.1 (Nat.lt_irrefl _)
  inside := fun n p hn => ⟨(h.buffered n p hn).1, (h.buffered n p hn).2.2⟩
  below := ⟨s.vrUr.value_lt, s.vrUx.value_lt, s.vrUh.value_lt⟩
  running := h.running

/-! ### What delivering leaves alone -/

structure SameNumbers (s t : LteRlcUm) : Prop where
  vrUr : t.vrUr = s.vrUr
  vrUx : t.vrUx = s.vrUx
  vrUh : t.vrUh.value = s.vrUh.value
  timer : t.reorderingTimer = s.reorderingTimer

theorem SameNumbers.refl (s : LteRlcUm) : SameNumbers s s := ⟨rfl, rfl, rfl, rfl⟩

theorem SameNumbers.trans {u : LteRlcUm} (h : SameNumbers s t) (h' : SameNumbers t u) :
    SameNumbers s u :=
  ⟨h'.vrUr.trans h.vrUr, h'.vrUx.trans h.vrUx, h'.vrUh.trans h.vrUh, h'.timer.trans h.timer⟩

theorem SameNumbers.offset (h : SameNumbers s t) (n : ℕ) : t.offset n = s.offset n := by
  unfold LteRlcUm.offset windowStart
  rw [h.vrUh]

theorem deliver_spec (s : LteRlcUm) (n : ℕ) (packet : List ℕ) :
    SameNumbers s (s.deliver n packet) ∧ (s.deliver n packet).vrUh = s.vrUh ∧
      (s.deliver n packet).rxBuffer = Function.update s.rxBuffer n none := by
  unfold deliver reassembleAndDeliver
  cases ({} : LteRlcHeader).deserialize packet <;> exact ⟨⟨rfl, rfl, rfl, rfl⟩, rfl, rfl⟩

theorem setUhBase_same (s : LteRlcUm) : SameNumbers s s.setUhBase := by
  unfold setUhBase
  generalize s.vrUh.sub umWindowSize = base
  exact ⟨rfl, rfl, rfl, rfl⟩

theorem setUhBase_rxBuffer (s : LteRlcUm) : s.setUhBase.rxBuffer = s.rxBuffer := by
  unfold setUhBase
  generalize s.vrUh.sub umWindowSize = base
  rfl

/-! ### Outside the window -/

def Cleared (s : LteRlcUm) (keys : List ℕ) (n : ℕ) : Prop :=
  n ∈ keys ∧ ∀ m ∈ keys, m ≤ n → (s.rxBuffer m).isSome → ¬ s.offset m < umWindowSize

theorem reassembleKeys_spec {keys : List ℕ} (hsorted : keys.Pairwise (· < ·))
    (hkeys : ∀ n ∈ keys, n < 1024) (s : LteRlcUm) :
    SameNumbers s (reassembleKeys keys s) ∧
      (∀ n, s.Cleared keys n → (reassembleKeys keys s).rxBuffer n = none) ∧
      ∀ n, ¬ s.Cleared keys n → (reassembleKeys keys s).rxBuffer n = s.rxBuffer n := by
  induction keys generalizing s with
  | nil => exact ⟨.refl s, fun n hn => absurd hn.1 List.not_mem_nil, fun _ _ => rfl⟩
  | cons k keys ih =>
    obtain ⟨hk, hsorted⟩ := List.pairwise_cons.mp hsorted
    have hk1024 : (SequenceNumber10.ofValue k).value = k :=
      Nat.mod_eq_of_lt (hkeys k List.mem_cons_self)
    have hkeys' : ∀ n ∈ keys, n < 1024 := fun n hn => hkeys n (List.mem_cons_of_mem _ hn)
    unfold reassembleKeys
    cases hentry : s.rxBuffer k with
    | none =>
      obtain ⟨hsame, hgone, hstay⟩ := ih hsorted hkeys' s
      have hcleared : ∀ n, n ≠ k → (s.Cleared (k :: keys) n ↔ s.Cleared keys n) := by
        intro n hn
        have hmem : n ∈ k :: keys ↔ n ∈ keys := by simp [hn]
        unfold Cleared
        rw [hmem, List.forall_mem_cons]
        refine and_congr_right fun _ => and_iff_right ?_
        intro _ hsome
        rw [hentry] at hsome
        cases hsome
      refine ⟨hsame, ?_, ?_⟩
      · intro n hn
        by_cases hnk : n = k
        · subst hnk
          by_cases hmem : s.Cleared keys n
          · exact hgone n hmem
          · exact (hstay n hmem).trans hentry
        · exact hgone n ((hcleared n hnk).mp hn)
      · intro n hn
        by_cases hnk : n = k
        · subst hnk
          by_cases hmem : s.Cleared keys n
          · exact (hgone n hmem).trans hentry.symm
          · exact hstay n hmem
        · exact hstay n fun hc => hn ((hcleared n hnk).mpr hc)
    | some packet =>
      dsimp only
      split_ifs with hinside
      · rw [isInside_iff, hk1024] at hinside
        have hnot : ∀ n, ¬ s.Cleared (k :: keys) n := by
          intro n hn
          have hle : k ≤ n := by
            rcases List.mem_cons.mp hn.1 with rfl | hmem
            · exact le_refl _
            · exact Nat.le_of_lt (hk n hmem)
          exact hn.2 k List.mem_cons_self hle (by rw [hentry]; rfl) hinside
        exact ⟨s.setUhBase_same, fun n hn => absurd hn (hnot n),
          fun n _ => by rw [setUhBase_rxBuffer]⟩
      · rw [isInside_iff, hk1024] at hinside
        obtain ⟨hdeliver, -, hbuffer⟩ := s.setUhBase.deliver_spec k packet
        rw [setUhBase_rxBuffer] at hbuffer
        have hsame' := s.setUhBase_same.trans hdeliver
        generalize s.setUhBase.deliver k packet = t at hdeliver hbuffer hsame' ⊢
        obtain ⟨hsame, hgone, hstay⟩ := ih hsorted hkeys' t
        have hcleared : ∀ n, n ≠ k → (s.Cleared (k :: keys) n ↔ t.Cleared keys n) := by
          intro n hn
          have hmem : n ∈ k :: keys ↔ n ∈ keys := by simp [hn]
          unfold Cleared
          rw [hmem, List.forall_mem_cons]
          refine and_congr_right fun _ => ?_
          constructor
          · intro hall m hm hle hsome
            rw [hsame'.offset]
            have hmk : m ≠ k := fun heq => Nat.lt_irrefl k (heq ▸ hk m hm)
            rw [hbuffer, Function.update_of_ne hmk] at hsome
            exact hall.2 m hm hle hsome
          · intro hall
            refine ⟨fun _ _ => hinside, fun m hm hle hsome => ?_⟩
            have hmk : m ≠ k := fun heq => Nat.lt_irrefl k (heq ▸ hk m hm)
            rw [← hsame'.offset]
            apply hall m hm hle
            rw [hbuffer, Function.update_of_ne hmk]
            exact hsome
        have hself : t.rxBuffer k = none := by rw [hbuffer, Function.update_self]
        have hknot : ¬ t.Cleared keys k := fun hc => Nat.lt_irrefl k (hk k hc.1)
        refine ⟨hsame'.trans hsame, ?_, ?_⟩
        · intro n hn
          by_cases hnk : n = k
          · subst hnk
            exact (hstay n hknot).trans hself
          · exact hgone n ((hcleared n hnk).mp hn)
        · intro n hn
          by_cases hnk : n = k
          · subst hnk
            apply absurd _ hn
            refine ⟨List.mem_cons_self, fun m hm hle _ => ?_⟩
            rcases List.mem_cons.mp hm with rfl | hmem
            · exact hinside
            · exact absurd (hk m hmem) (Nat.not_lt_of_le hle)
          · rw [hstay n fun hc => hn ((hcleared n hnk).mpr hc), hbuffer,
              Function.update_of_ne hnk]

end Window
end LteRlcUm
end NetGymSim.Lte

/-!
## Receiving a PDU

A PDU that is not discarded is placed in the reception buffer. It may move the window, then the
PDUs in sequence from VR(UR) on are delivered, and the timer is stopped and started.
-/

namespace NetGymSim.Lte
open NetGymSim.Lib
namespace LteRlcUm

section Deliver
variable {s t : LteRlcUm}

/-! ### Delivering an interval -/

theorem deliverAt_spec (s : LteRlcUm) (n : ℕ) :
    SameNumbers s (s.deliverAt n) ∧ (s.deliverAt n).vrUh = s.vrUh ∧
      (s.deliverAt n).rxBuffer = Function.update s.rxBuffer n none := by
  unfold deliverAt
  cases hentry : s.rxBuffer n with
  | none => exact ⟨.refl s, rfl, (Function.update_eq_self_iff.mpr hentry.symm).symm⟩
  | some packet => exact s.deliver_spec n packet

theorem reassembleSnInterval_spec (fuel : ℕ) (s : LteRlcUm) {sn high : SequenceNumber10}
    (hb : sn.modulusBase = high.modulusBase) (hle : sn.dist ≤ high.dist)
    (hfuel : high.dist < sn.dist + fuel) :
    SameNumbers s (reassembleSnInterval fuel s sn high) ∧
      (reassembleSnInterval fuel s sn high).vrUh = s.vrUh ∧
      ∀ n, (reassembleSnInterval fuel s sn high).rxBuffer n =
        if n < 1024 ∧ sn.dist ≤ forward 1024 n sn.modulusBase ∧
            forward 1024 n sn.modulusBase < high.dist then none
        else s.rxBuffer n := by
  induction fuel generalizing s sn with
  | zero => omega
  | succ fuel ih =>
    have hlt := SequenceNumber10.lt_iff hb
    unfold reassembleSnInterval
    by_cases hgo : sn.lt high
    · rw [if_pos hgo]
      have hless := hlt.mp hgo
      have hhigh := high.dist_lt
      have hsucc : sn.succ.dist = sn.dist + 1 := SequenceNumber10.dist_succ (by omega)
      obtain ⟨hsame, hUh, hbuffer⟩ := s.deliverAt_spec sn.value
      generalize s.deliverAt sn.value = u at hsame hUh hbuffer ⊢
      obtain ⟨hsame', hUh', hrest⟩ := @ih u sn.succ hb (by omega) (by omega)
      refine ⟨hsame.trans hsame', hUh'.trans hUh, ?_⟩
      intro n
      rw [hrest n, hsucc, SequenceNumber10.succ_modulusBase, hbuffer]
      by_cases hself : n = sn.value
      · have hdist : forward 1024 n sn.modulusBase = sn.dist := by
          rw [hself]
          rfl
        have hvalue := sn.value_lt
        rw [if_neg (by omega), if_pos (by omega), hself, Function.update_self]
      · have hne : n < 1024 → forward 1024 n sn.modulusBase ≠ sn.dist := by
          intro hn hdist
          have hres := residue_forward sn.modulusBase hn
          rw [Nat.mod_eq_of_lt sn.base_lt, hdist, ← sn.value_eq] at hres
          exact hself hres.symm
        rw [Function.update_of_ne hself]
        split_ifs <;> first | rfl | omega
    · rw [if_neg hgo]
      have hge : ¬ sn.dist < high.dist := fun hless => hgo (hlt.mpr hless)
      refine ⟨.refl s, rfl, fun n => ?_⟩
      rw [if_neg (by omega)]

/-! ### Delivering from VR(UR) on -/

def Run (s : LteRlcUm) (n len : ℕ) : Prop :=
  (∀ j, j < len → (s.rxBuffer (n + j)).isSome) ∧ s.rxBuffer (n + len) = none

theorem firstMissing_spec (hkeys : ∀ n, 1024 ≤ n → s.rxBuffer n = none) (fuel : ℕ) {n : ℕ}
    (hn : n ≤ 1024) (hfuel : 1024 ≤ n + fuel) :
    ∃ len, s.firstMissing fuel n = n + len ∧ n + len ≤ 1024 ∧ s.Run n len := by
  induction fuel generalizing n with
  | zero => exact ⟨0, rfl, hn, fun j hj => absurd hj (Nat.not_lt_zero j), hkeys _ (by omega)⟩
  | succ fuel ih =>
    unfold firstMissing
    split_ifs with hentry
    · have hlt : n < 1024 := by
        by_contra hge
        rw [hkeys n (by omega)] at hentry
        cases hentry
      obtain ⟨len, hlen, hle, hrun⟩ := @ih (n + 1) (by omega) (by omega)
      refine ⟨len + 1, by omega, by omega, ?_, ?_⟩
      · intro j hj
        cases j with
        | zero => exact hentry
        | succ j =>
          have hj' := hrun.1 j (by omega)
          rwa [show n + 1 + j = n + (j + 1) by omega] at hj'
      · have hend := hrun.2
        rwa [show n + 1 + len = n + (len + 1) by omega] at hend
    · refine ⟨0, rfl, hn, fun j hj => absurd hj (Nat.not_lt_zero j), ?_⟩
      exact Option.not_isSome_iff_eq_none.mp hentry

/-- The run of PDUs from VR(UR) on is delivered and VR(UR) moved behind it. The last key is
followed by zero. -/
theorem deliverFront_spec (hkeys : ∀ n, 1024 ≤ n → t.rxBuffer n = none)
    (hroom : ∀ len, t.Run t.vrUr.value len → t.vrUr.dist + len < 1024) :
    ∃ len, t.Run t.vrUr.value len ∧ t.vrUr.value + len ≤ 1024 ∧
      t.deliverFront.vrUr.value = (t.vrUr.value + len) % 1024 ∧
      t.deliverFront.vrUx = t.vrUx ∧ t.deliverFront.vrUh = t.vrUh ∧
      t.deliverFront.reorderingTimer = t.reorderingTimer ∧
      ∀ n, t.deliverFront.rxBuffer n =
        if t.vrUr.value ≤ n ∧ n < t.vrUr.value + len then none else t.rxBuffer n := by
  have hUr := t.vrUr.value_lt
  unfold deliverFront
  by_cases hentry : (t.rxBuffer t.vrUr.value).isSome
  · rw [if_pos hentry]
    obtain ⟨len, hlen, hle, hrun⟩ := firstMissing_spec hkeys 1024 (n := t.vrUr.value + 1) (by omega)
      (by omega)
    have hrun' : t.Run t.vrUr.value (len + 1) := by
      constructor
      · intro j hj
        cases j with
        | zero => exact hentry
        | succ j =>
          have hj' := hrun.1 j (by omega)
          rwa [show t.vrUr.value + 1 + j = t.vrUr.value + (j + 1) by omega] at hj'
      · have hend := hrun.2
        rwa [show t.vrUr.value + 1 + len = t.vrUr.value + (len + 1) by omega] at hend
    have hdist := hroom _ hrun'
    have hassign :
        t.vrUr.assign (t.firstMissing 1024 (t.vrUr.value + 1)) = t.vrUr.add (len + 1) := by
      unfold SequenceNumber10.add
      rw [hlen, Nat.add_assoc, Nat.add_comm 1 len]
    dsimp only
    rw [hassign]
    have hnew := SequenceNumber10.dist_add hdist
    obtain ⟨hsame, hUh, hbuffer⟩ := @reassembleSnInterval_spec 1024
      { t with vrUr := t.vrUr.add (len + 1) } t.vrUr (t.vrUr.add (len + 1)) rfl (by omega)
      (by omega)
    refine ⟨len + 1, hrun', by omega, ?_, hsame.vrUx, hUh, hsame.timer, ?_⟩
    · rw [hsame.vrUr]
      rfl
    · intro n
      rw [hbuffer n, hnew]
      have hvalue := t.vrUr.value_eq
      have hbase := t.vrUr.base_lt
      have hdistLt := t.vrUr.dist_lt
      have hiff : (n < 1024 ∧ t.vrUr.dist ≤ forward 1024 n t.vrUr.modulusBase ∧
          forward 1024 n t.vrUr.modulusBase < t.vrUr.dist + (len + 1)) ↔
            (t.vrUr.value ≤ n ∧ n < t.vrUr.value + (len + 1)) := by
        unfold forward
        omega
      simp only [hiff]
  · rw [if_neg hentry]
    refine ⟨0, ⟨fun j hj => absurd hj (Nat.not_lt_zero j), ?_⟩, by omega, ?_, rfl, rfl, rfl, ?_⟩
    · exact Option.not_isSome_iff_eq_none.mp hentry
    · rw [Nat.add_zero, Nat.mod_eq_of_lt hUr]
    · intro n
      rw [if_neg (by omega)]

end Deliver

/-! ### Where a PDU is placed -/

def placed (s : LteRlcUm) (x : ℕ) (packet : List ℕ) : LteRlcUm :=
  { s with
    rxBuffer := Function.update s.rxBuffer x (some packet)
    vrUh := if s.offset x < umWindowSize then s.vrUh else .ofValue (x + 1) }

def front (t : LteRlcUm) : ℕ :=
  if t.offset t.vrUr.value < umWindowSize then t.vrUr.value else t.windowStart

/-- The numbers in the order of the map: those outside the window come before those inside, and
the PDUs in sequence do not go on from the last number to zero. -/
structure InOrder (t : LteRlcUm) : Prop where
  outsideFirst : ∀ n < 1024, (t.rxBuffer n).isSome → ¬ t.offset n < umWindowSize →
    ∀ m < 1024, (t.rxBuffer m).isSome → t.offset m < umWindowSize → n < m
  noWrap : ¬ ((∀ n < 1024, t.front ≤ n → (t.rxBuffer n).isSome) ∧ (t.rxBuffer 0).isSome ∧
    t.offset 0 < umWindowSize)

section Place
variable {s t u : LteRlcUm} {x : ℕ} {packet : List ℕ}

theorem placed_vrUh_outside (hx : ¬ s.offset x < umWindowSize) :
    (s.placed x packet).vrUh.value = (x + 1) % 1024 := by
  unfold placed
  rw [if_neg hx]
  rfl

theorem placed_windowStart (hx : ¬ s.offset x < umWindowSize) :
    (s.placed x packet).windowStart = (x + 1 + 512) % 1024 := by
  unfold windowStart
  rw [placed_vrUh_outside hx]
  omega

theorem placed_offset_inside (hx : s.offset x < umWindowSize) (n : ℕ) :
    (s.placed x packet).offset n = s.offset n := by
  unfold offset windowStart placed
  rw [if_pos hx]

theorem placed_offset_outside (hx : ¬ s.offset x < umWindowSize) {n : ℕ}
    (hn : n < 1024) :
    (s.placed x packet).offset n =
      if s.offset x < s.offset n + 512 then s.offset n + 511 - s.offset x
      else s.offset n + 1535 - s.offset x := by
  have hstart := s.windowStart_lt
  unfold offset at hx ⊢
  rw [placed_windowStart hx]
  unfold forward umWindowSize at *
  split_ifs <;> omega

structure Placeable (s : LteRlcUm) (x : ℕ) : Prop where
  consistent : RxConsistent s
  lt : x < 1024
  ge : s.offset s.vrUr.value ≤ s.offset x

theorem placed_rxBuffer (n : ℕ) : (s.placed x packet).rxBuffer n =
    if n = x then some packet else s.rxBuffer n := Function.update_apply _ _ _ n

theorem Placeable.keys (h : s.Placeable x) {n : ℕ} (hn : 1024 ≤ n) :
    (s.placed x packet).rxBuffer n = none := by
  have hlt := h.lt
  rw [placed_rxBuffer, if_neg (by omega)]
  cases hentry : s.rxBuffer n with
  | none => rfl
  | some p => exact absurd (h.consistent.buffered n p hentry).1 (by omega)

theorem Placeable.vrUh_free (h : s.Placeable x) :
    (s.placed x packet).rxBuffer (s.placed x packet).vrUh.value = none := by
  have hlt := h.lt
  have hUr := s.offset_lt x
  rw [placed_rxBuffer]
  by_cases hx : s.offset x < umWindowSize
  · have hhigh : (s.placed x packet).vrUh.value = s.vrUh.value := by
      unfold placed
      rw [if_pos hx]
    have hend := s.offset_vrUh
    rw [hhigh, if_neg]
    · cases hentry : s.rxBuffer s.vrUh.value with
      | none => rfl
      | some p =>
        have hless := (h.consistent.buffered _ p hentry).2.2
        omega
    · intro heq
      rw [heq] at hend
      omega
  · have hhigh : (s.placed x packet).vrUh.value = (x + 1) % 1024 := placed_vrUh_outside hx
    have hnext : s.offset ((x + 1) % 1024) = (s.offset x + 1) % 1024 := by
      have hstart := s.windowStart_lt
      unfold offset forward
      omega
    rw [hhigh, if_neg (by omega)]
    cases hentry : s.rxBuffer ((x + 1) % 1024) with
    | none => rfl
    | some p =>
      obtain ⟨-, hgreater, hless⟩ := h.consistent.buffered _ p hentry
      unfold umWindowSize at *
      omega

theorem Placeable.front_le (h : s.Placeable x) {n : ℕ} (hn : n < 1024)
    (hentry : ((s.placed x packet).rxBuffer n).isSome)
    (hinside : (s.placed x packet).offset n < umWindowSize) :
    (s.placed x packet).offset (s.placed x packet).front ≤ (s.placed x packet).offset n := by
  have hstart : (s.placed x packet).offset (s.placed x packet).windowStart = 0 := by
    have hlt := (s.placed x packet).windowStart_lt
    unfold offset forward
    omega
  unfold front
  split_ifs with hfront
  · have hUr : (s.placed x packet).vrUr = s.vrUr := rfl
    have hold : n = x ∨ s.offset s.vrUr.value < s.offset n ∧ s.offset n < umWindowSize := by
      by_cases hnx : n = x
      · exact .inl hnx
      · right
        rw [placed_rxBuffer, if_neg hnx] at hentry
        obtain ⟨p, hp⟩ := Option.isSome_iff_exists.mp hentry
        exact (h.consistent.buffered n p hp).2
    have hge := h.ge
    rw [hUr] at hfront ⊢
    by_cases hx : s.offset x < umWindowSize
    · rw [placed_offset_inside hx, placed_offset_inside hx]
      rcases hold with rfl | hold
      · exact hge
      · omega
    · have hlt := s.offset_lt x
      have hle := h.consistent.front_le
      rw [placed_offset_outside hx hn] at hinside ⊢
      rw [placed_offset_outside hx s.vrUr.value_lt] at hfront ⊢
      unfold umWindowSize at *
      rcases hold with rfl | hold
      · split_ifs at * <;> omega
      · split_ifs at * <;> omega
  · omega

structure Moved (t u : LteRlcUm) : Prop where
  vrUh : u.vrUh.value = t.vrUh.value
  vrUr : u.vrUr.value = t.front
  gone : ∀ n, t.Cleared (List.range 1024) n → ¬ t.offset n < umWindowSize → u.rxBuffer n = none
  stay : ∀ n, ¬ (t.Cleared (List.range 1024) n ∧ ¬ t.offset n < umWindowSize) →
    u.rxBuffer n = t.rxBuffer n
  room : ∀ len, u.Run t.front len → u.vrUr.dist + len < 1024

theorem offset_congr (h : u.vrUh.value = t.vrUh.value) (n : ℕ) : u.offset n = t.offset n := by
  unfold offset windowStart
  rw [h]

theorem cleared_congr (h : u.vrUh.value = t.vrUh.value) (hbuffer : u.rxBuffer = t.rxBuffer)
    {keys : List ℕ} {n : ℕ} : u.Cleared keys n ↔ t.Cleared keys n := by
  unfold Cleared
  simp only [offset_congr h, hbuffer]

theorem Run.offset_le {n len : ℕ} (h : t.Run n len)
    (hkeys : ∀ n, 1024 ≤ n → t.rxBuffer n = none) (hfree : t.rxBuffer t.vrUh.value = none)
    (hn : n < 1024) (hle : t.offset n ≤ umWindowSize) :
    t.offset n + len ≤ umWindowSize := by
  by_contra hmore
  have hj := h.1 (umWindowSize - t.offset n) (by omega)
  have hlt : n + (umWindowSize - t.offset n) < 1024 := by
    by_contra hge
    rw [hkeys _ (by omega)] at hj
    cases hj
  have hoffset : t.offset (n + (umWindowSize - t.offset n)) = umWindowSize := by
    have hstart := t.windowStart_lt
    unfold offset forward umWindowSize at *
    omega
  have heq := offset_inj hlt t.vrUh.value_lt (hoffset.trans t.offset_vrUh.symm)
  rw [heq, hfree] at hj
  cases hj

theorem Moved.none (h : Moved t u) {n : ℕ} (hn : t.rxBuffer n = none) : u.rxBuffer n = none := by
  by_cases hc : t.Cleared (List.range 1024) n ∧ ¬ t.offset n < umWindowSize
  · exact h.gone n hc.1 hc.2
  · exact (h.stay n hc).trans hn

def arrived (s : LteRlcUm) (x : ℕ) (packet : List ℕ) : LteRlcUm :=
  { s.setReceiveBases with rxBuffer := Function.update s.rxBuffer x (some packet) }

theorem arrived_offset (n : ℕ) : (s.arrived x packet).offset n = s.offset n := by
  apply offset_congr
  unfold arrived setReceiveBases
  generalize s.vrUh.sub umWindowSize = base
  rfl

theorem arrived_vrUr : (s.arrived x packet).vrUr.value = s.vrUr.value ∧
    (s.arrived x packet).vrUr.modulusBase = s.windowStart := by
  have hstart := s.sub_value
  unfold arrived setReceiveBases
  generalize s.vrUh.sub umWindowSize = base at hstart ⊢
  exact ⟨rfl, hstart⟩

theorem arrived_vrUh : (s.arrived x packet).vrUh.value = s.vrUh.value := by
  unfold arrived setReceiveBases
  generalize s.vrUh.sub umWindowSize = base
  rfl

theorem raised_spec {high : SequenceNumber10} (hx : ¬ s.offset x < umWindowSize)
    (hhigh : high.value = (x + 1) % 1024) :
    let t := s.placed x packet
    let v := ({ (s.arrived x packet).setUhBase with vrUh := high } :
      LteRlcUm).reassembleOutsideWindow
    v.vrUh.value = t.vrUh.value ∧ v.vrUr = (s.arrived x packet).vrUr ∧
      (∀ n, t.Cleared (List.range 1024) n → v.rxBuffer n = none) ∧
      ∀ n, ¬ t.Cleared (List.range 1024) n → v.rxBuffer n = t.rxBuffer n := by
  have hUh : high.value = (s.placed x packet).vrUh.value := by
    rw [hhigh, placed_vrUh_outside hx]
  have hbuffer : (s.arrived x packet).setUhBase.rxBuffer = (s.placed x packet).rxBuffer := by
    rw [setUhBase_rxBuffer]
    rfl
  have hvrUr := ((s.arrived x packet).setUhBase_same).vrUr
  dsimp only
  generalize (s.arrived x packet).setUhBase = w at hbuffer hvrUr ⊢
  unfold reassembleOutsideWindow
  have hsorted : (List.range 1024).Pairwise (· < ·) := List.pairwise_lt_range
  have hkeys : ∀ n ∈ List.range 1024, n < 1024 := fun n hn => List.mem_range.mp hn
  generalize List.range 1024 = keys at hsorted hkeys ⊢
  obtain ⟨hsame, hgone, hstay⟩ := reassembleKeys_spec hsorted hkeys { w with vrUh := high }
  have hcleared : ∀ n, ({ w with vrUh := high } : LteRlcUm).Cleared keys n ↔
      (s.placed x packet).Cleared keys n := by
    intro n
    apply @cleared_congr (s.placed x packet) { w with vrUh := high } hUh hbuffer
  refine ⟨hsame.vrUh.trans hUh, hsame.vrUr.trans hvrUr, ?_, ?_⟩
  · intro n hn
    exact hgone n ((hcleared n).mpr hn)
  · intro n hn
    exact (hstay n fun hc => hn ((hcleared n).mp hc)).trans (congrFun hbuffer n)

theorem moveWindow_inside {sn : SequenceNumber10} (h : s.offset sn.value < umWindowSize) :
    s.moveWindow sn = s.setUhBase := by
  unfold moveWindow
  rw [if_pos ((s.isInside_iff sn).mpr h)]

theorem moveWindow_outside {sn : SequenceNumber10} (h : ¬ s.offset sn.value < umWindowSize) :
    s.moveWindow sn =
      let v := ({ s.setUhBase with vrUh := sn.add 1 } : LteRlcUm).reassembleOutsideWindow
      if v.offset v.vrUr.value < umWindowSize then v.setUhBase
      else { v.setUhBase with vrUr := v.setUhBase.vrUh.sub umWindowSize } := by
  have hin : ¬ s.isInsideReorderingWindow sn = true := fun hin => h ((s.isInside_iff sn).mp hin)
  unfold moveWindow
  rw [if_neg hin]
  simp only [isInside_iff]

theorem front_offset_le (t : LteRlcUm) : t.front < 1024 ∧ t.offset t.front < umWindowSize := by
  have hlt := t.windowStart_lt
  have hzero : t.offset t.windowStart = 0 := by
    unfold offset forward
    omega
  unfold front
  split_ifs with hfront
  · exact ⟨t.vrUr.value_lt, hfront⟩
  · exact ⟨hlt, by rw [hzero]; decide⟩

theorem Placeable.moved_inside (h : s.Placeable x) (hx : s.offset x < umWindowSize) :
    Moved (s.placed x packet) (s.arrived x packet).setUhBase := by
  have hsame := (s.arrived x packet).setUhBase_same
  have hbuffer : (s.arrived x packet).setUhBase.rxBuffer = (s.placed x packet).rxBuffer := by
    rw [setUhBase_rxBuffer]
    rfl
  have hUr := @arrived_vrUr s x packet
  have hUh : (s.arrived x packet).setUhBase.vrUh.value = (s.placed x packet).vrUh.value := by
    rw [hsame.vrUh, arrived_vrUh]
    unfold placed
    rw [if_pos hx]
  have hfront : (s.placed x packet).front = s.vrUr.value := by
    have hge := h.ge
    refine if_pos ?_
    rw [placed_offset_inside hx]
    exact lt_of_le_of_lt hge hx
  have hvrUr := hsame.vrUr
  generalize (s.arrived x packet).setUhBase = u at hbuffer hUh hvrUr ⊢
  refine ⟨hUh, ?_, ?_, ?_, ?_⟩
  · rw [hvrUr, hUr.1, hfront]
  · intro n hc hout
    rw [hbuffer, placed_rxBuffer]
    rw [placed_offset_inside hx] at hout
    rw [if_neg fun (hnx : n = x) => hout (hnx ▸ hx)]
    cases hentry : s.rxBuffer n with
    | none => rfl
    | some p => exact absurd (h.consistent.buffered n p hentry).2.2 hout
  · intro n _
    rw [hbuffer]
  · intro len hrun
    have hdist : u.vrUr.dist = s.offset s.vrUr.value := by
      rw [hvrUr, dist_eq_offset hUr.2, hUr.1]
    have hle := hrun.offset_le (fun n hn => by rw [hbuffer, h.keys hn])
      (by rw [hbuffer, hUh, h.vrUh_free]) (front_offset_le _).1
      (by rw [offset_congr hUh]; exact Nat.le_of_lt (front_offset_le _).2)
    rw [offset_congr hUh, hfront, placed_offset_inside hx] at hle
    unfold umWindowSize at hle
    omega

theorem Placeable.moved_outside (h : s.Placeable x) (hx : ¬ s.offset x < umWindowSize)
    {sn : SequenceNumber10} (hvalue : sn.value = x) :
    Moved (s.placed x packet) ((s.arrived x packet).moveWindow sn) := by
  have hout : ¬ (s.arrived x packet).offset sn.value < umWindowSize := by
    rwa [arrived_offset, hvalue]
  have hhigh : (sn.add 1).value = (x + 1) % 1024 := by
    rw [← hvalue]
    rfl
  have hraised := @raised_spec s x packet _ hx hhigh
  have hUr := @arrived_vrUr s x packet
  rw [moveWindow_outside hout]
  dsimp only at hraised ⊢
  generalize ({ (s.arrived x packet).setUhBase with vrUh := sn.add 1 } :
    LteRlcUm).reassembleOutsideWindow = v at hraised ⊢
  obtain ⟨hUh, hvrUr, hgone, hstay⟩ := hraised
  have hsame := v.setUhBase_same
  have hbuffer := v.setUhBase_rxBuffer
  have hstay' : ∀ n, ¬ ((s.placed x packet).Cleared (List.range 1024) n ∧
      ¬ (s.placed x packet).offset n < umWindowSize) →
        v.rxBuffer n = (s.placed x packet).rxBuffer n := by
    intro n hn
    by_cases hc : (s.placed x packet).Cleared (List.range 1024) n
    · have hinside : (s.placed x packet).offset n < umWindowSize := by
        by_contra hout
        exact hn ⟨hc, hout⟩
      rw [hgone n hc]
      cases hentry : (s.placed x packet).rxBuffer n with
      | none => rfl
      | some p => exact absurd hinside (hc.2 n hc.1 (le_refl n) (by rw [hentry]; rfl))
    · exact hstay n hc
  have hkeys : ∀ n, 1024 ≤ n → v.rxBuffer n = none := by
    intro n hn
    rw [hstay n fun hc => absurd (List.mem_range.mp hc.1) (by omega), h.keys hn]
  have hfree : v.rxBuffer v.vrUh.value = none := by
    rw [hUh]
    by_cases hc : (s.placed x packet).Cleared (List.range 1024) (s.placed x packet).vrUh.value
    · exact hgone _ hc
    · rw [hstay _ hc, h.vrUh_free]
  have hoffset := fun n => offset_congr hUh n
  by_cases hin : v.offset v.vrUr.value < umWindowSize
  · have hfront : (s.placed x packet).front = s.vrUr.value := by
      refine if_pos ?_
      rwa [hoffset, hvrUr, hUr.1] at hin
    rw [if_pos hin]
    refine ⟨hsame.vrUh.trans hUh, ?_, ?_, ?_, ?_⟩
    · rw [hsame.vrUr, hvrUr, hUr.1, hfront]
    · intro n hc _
      rw [hbuffer, hgone n hc]
    · intro n hn
      rw [hbuffer, hstay' n hn]
    · intro len hrun
      rw [hfront] at hrun
      have hdist : v.setUhBase.vrUr.dist = s.offset s.vrUr.value := by
        rw [hsame.vrUr, hvrUr, dist_eq_offset hUr.2, hUr.1]
      have hle := h.consistent.front_le
      have hrun' : v.Run s.vrUr.value len := by
        unfold Run at hrun ⊢
        rwa [hbuffer] at hrun
      by_cases hxUr : x = s.vrUr.value
      · have hlen := hrun'.offset_le hkeys hfree s.vrUr.value_lt
          (by rw [hvrUr, hUr.1] at hin; exact Nat.le_of_lt hin)
        rw [hoffset, placed_offset_outside hx s.vrUr.value_lt, ← hxUr, if_pos (by omega)] at hlen
        unfold umWindowSize at *
        omega
      · have hnone : v.rxBuffer s.vrUr.value = none := by
          by_cases hc : (s.placed x packet).Cleared (List.range 1024) s.vrUr.value
          · exact hgone _ hc
          · rw [hstay _ hc, placed_rxBuffer, if_neg (Ne.symm hxUr)]
            exact h.consistent.receiveInvariant.front
        have hzero : len = 0 := by
          by_contra hne
          have hsome := hrun'.1 0 (by omega)
          rw [Nat.add_zero, hnone] at hsome
          cases hsome
        unfold umWindowSize at *
        omega
  · have hfront : (s.placed x packet).front = (s.placed x packet).windowStart := by
      refine if_neg ?_
      rwa [hoffset, hvrUr, hUr.1] at hin
    have hstart : v.setUhBase.windowStart = (s.placed x packet).windowStart := by
      unfold windowStart
      rw [hsame.vrUh, hUh]
    have hvalue := v.setUhBase.sub_value
    have hbase : (v.setUhBase.vrUh.sub umWindowSize).modulusBase = v.windowStart := by
      rw [SequenceNumber10.sub_modulusBase]
      exact v.sub_value
    have hstart' : v.windowStart = (s.placed x packet).windowStart := by
      unfold windowStart
      rw [hUh]
    rw [if_neg hin]
    have hkeys' : ∀ n, 1024 ≤ n → v.setUhBase.rxBuffer n = none := by
      rw [hbuffer]
      exact hkeys
    have hfree' : v.setUhBase.rxBuffer v.setUhBase.vrUh.value = none := by
      rw [hbuffer, hsame.vrUh]
      exact hfree
    have hUh' := hsame.vrUh.trans hUh
    generalize v.setUhBase = w at hvalue hbase hstart hbuffer hkeys' hfree' hUh' ⊢
    generalize w.vrUh.sub umWindowSize = start at hvalue hbase ⊢
    refine ⟨hUh', ?_, ?_, ?_, ?_⟩
    · exact hvalue.trans (hstart.trans hfront.symm)
    · intro n hc _
      rw [hbuffer, hgone n hc]
    · intro n hn
      rw [hbuffer, hstay' n hn]
    · intro len hrun
      have hzero : start.dist = 0 := by
        rw [SequenceNumber10.dist_eq_zero, hvalue, hbase, hstart, hstart']
      have hlen := Run.offset_le (t := w) hrun hkeys' hfree' (front_offset_le _).1
        (by rw [offset_congr hUh']; exact Nat.le_of_lt (front_offset_le _).2)
      unfold umWindowSize at hlen
      show start.dist + len < 1024
      omega

end Place
end LteRlcUm
end NetGymSim.Lte

import Mathlib.Data.List.Nodup
import NetGymSim.Gma.NsPfHarq

/-!
# RBGs of one TTI

Bitmaps are disjoint when their RBGs are. The search for RBGs takes the free ones in
the cyclic order that starts after the last RBG of the retransmission, so a
retransmission that has to move finds room when enough RBGs other than that one are free.
-/

namespace NetGymSim.Gma
open NetGymSim.Lib

@[simp] theorem mem_dciRbgs (bitmap : BitVec 32) (r : ℕ) :
    r ∈ dciRbgs bitmap ↔ bitmap.getLsbD r = true := by
  rw [dciRbgs, List.mem_filter, List.mem_range]
  constructor
  · intro h
    exact h.2
  · intro h
    exact ⟨BitVec.lt_of_getLsbD h, h⟩

theorem dciRbgs_nodup (bitmap : BitVec 32) : (dciRbgs bitmap).Nodup :=
  List.nodup_range.filter _

theorem disjoint_bitmaps_iff (a b : BitVec 32) :
    a &&& b = 0#32 ↔ (dciRbgs a).Disjoint (dciRbgs b) := by
  constructor
  · intro h r ha hb
    have hbit : (a &&& b).getLsbD r = (0#32).getLsbD r := by rw [h]
    rw [BitVec.getLsbD_and, (mem_dciRbgs a r).mp ha, (mem_dciRbgs b r).mp hb] at hbit
    simp at hbit
  · intro h
    apply BitVec.eq_of_getLsbD_eq
    intro r _
    rw [BitVec.getLsbD_and, BitVec.getLsbD_zero]
    by_contra hne
    have hboth : a.getLsbD r = true ∧ b.getLsbD r = true := by simpa using hne
    exact h ((mem_dciRbgs a r).mpr hboth.1) ((mem_dciRbgs b r).mpr hboth.2)

theorem getLsbD_add_bit {mask : BitVec 32} {r : ℕ} (hr : r < 32) (hfree : mask.getLsbD r = false)
    (i : ℕ) : (mask + (1#32 <<< r)).getLsbD i = (mask.getLsbD i || decide (i = r)) := by
  have hbit : ∀ j, (1#32 <<< r).getLsbD j = decide (j = r) := by
    intro j
    rw [BitVec.getLsbD_shiftLeft, BitVec.getLsbD_one]
    by_cases hj : j = r
    · simp [hj, hr]
    · simp only [hj, decide_false, Bool.and_eq_false_imp]
      intro hlt
      have hle : j < 32 ∧ r ≤ j := by simpa using hlt
      simp
      omega
  have hzero : mask &&& (1#32 <<< r) = 0#32 := by
    apply BitVec.eq_of_getLsbD_eq
    intro j _
    rw [BitVec.getLsbD_and, hbit, BitVec.getLsbD_zero]
    by_cases hj : j = r
    · rw [hj, hfree, Bool.false_and]
    · simp [hj]
  rw [BitVec.add_eq_or_of_and_eq_zero _ _ hzero, BitVec.getLsbD_or, hbit]

theorem mem_dciRbgs_rbgMask {rbgs : List ℕ} (hnodup : rbgs.Nodup) (hlt : ∀ r ∈ rbgs, r < 32)
    (i : ℕ) : i ∈ dciRbgs (rbgMask rbgs) ↔ i ∈ rbgs := by
  have hfold : ∀ (l : List ℕ) (mask : BitVec 32), l.Nodup → (∀ r ∈ l, r < 32) →
      (∀ r ∈ l, mask.getLsbD r = false) →
      ((l.foldl (fun mask r => mask + (1#32 <<< r)) mask).getLsbD i = true ↔
        mask.getLsbD i = true ∨ i ∈ l) := by
    intro l
    induction l with
    | nil => simp
    | cons r rest ih =>
      intro mask hnd hl hfree
      obtain ⟨hr, hrest⟩ := List.nodup_cons.mp hnd
      have hadd := getLsbD_add_bit (hl r List.mem_cons_self) (hfree r List.mem_cons_self)
      rw [List.foldl_cons, ih _ hrest (fun x hx => hl x (List.mem_cons_of_mem _ hx)), hadd]
      · simp [or_assoc]
      · intro x hx
        have hne : x ≠ r := fun heq => hr (heq ▸ hx)
        rw [hadd, hfree x (List.mem_cons_of_mem _ hx)]
        simp [hne]
  rw [mem_dciRbgs, rbgMask, hfold rbgs 0#32 hnodup hlt (fun r _ => BitVec.getLsbD_zero)]
  simp

def FreeRbg (rbgMap : List Bool) (r : ℕ) : Prop := rbgMap[r]? = some false

instance (rbgMap : List Bool) : DecidablePred (FreeRbg rbgMap) := fun r =>
  inferInstanceAs (Decidable (rbgMap[r]? = some false))

theorem getElem?_reserve (rbgMap : List Bool) (rbgs : List ℕ) (r : ℕ) :
    (reserve rbgMap rbgs)[r]? =
      if r ∈ rbgs then rbgMap[r]?.map fun _ => true else rbgMap[r]? := by
  unfold reserve
  induction rbgs generalizing rbgMap with
  | nil => simp
  | cons x rest ih =>
    rw [List.foldl_cons, ih, List.getElem?_set]
    by_cases hx : x = r
    · subst hx
      simp only [if_true, List.mem_cons, true_or]
      by_cases hlt : x < rbgMap.length
      · simp [hlt]
      · simp [hlt]
    · have hne : r ≠ x := fun h => hx h.symm
      simp [hx, hne]

theorem reserve_taken {rbgMap : List Bool} {rbgs : List ℕ} (hfree : ∀ r ∈ rbgs, FreeRbg rbgMap r)
    {r : ℕ} (hr : r ∈ rbgs) : (reserve rbgMap rbgs)[r]? = some true := by
  rw [getElem?_reserve, if_pos hr, hfree r hr]
  rfl

theorem reserve_keeps {rbgMap : List Bool} (rbgs : List ℕ) {r : ℕ}
    (hr : rbgMap[r]? = some true) : (reserve rbgMap rbgs)[r]? = some true := by
  rw [getElem?_reserve, hr]
  by_cases hmem : r ∈ rbgs
  · rw [if_pos hmem]
    rfl
  · rw [if_neg hmem]

theorem allFree_spec {rbgMap : List Bool} {rbgs : List ℕ} {free : Bool}
    (h : allFree rbgMap rbgs = .ok free) :
    free = true ↔ ∀ r ∈ rbgs, FreeRbg rbgMap r := by
  induction rbgs with
  | nil =>
    cases pure_eq_ok.mp h
    simp
  | cons r rest ih =>
    obtain ⟨taken, hat, h⟩ := bind_eq_ok.mp h
    have hr := vecAt_ok hat
    cases taken with
    | true =>
      cases pure_eq_ok.mp h
      simp [FreeRbg, hr]
    | false =>
      rw [ih h]
      simp [FreeRbg, hr]

/-- The RBGs after `r`, round the band and back to `startRbg`. -/
def cyclicFrom (rbgNum startRbg r turns : ℕ) : List ℕ :=
  ((List.range turns).map fun k => (r + k) % rbgNum).takeWhile (· ≠ startRbg)

theorem cyclicFrom_succ {rbgNum startRbg r turns : ℕ} (hr : r < rbgNum) :
    cyclicFrom rbgNum startRbg r (turns + 1) =
      if r = startRbg then [] else r :: cyclicFrom rbgNum startRbg ((r + 1) % rbgNum) turns := by
  unfold cyclicFrom
  rw [List.range_succ_eq_map, List.map_cons, List.map_map, List.takeWhile_cons, Nat.add_zero,
    Nat.mod_eq_of_lt hr]
  have hshift : ((fun k => (r + k) % rbgNum) ∘ Nat.succ) =
      fun k => ((r + 1) % rbgNum + k) % rbgNum := by
    funext k
    simp only [Function.comp, Nat.succ_eq_add_one, Nat.mod_add_mod]
    congr 1
    omega
  rw [hshift]
  by_cases h : r = startRbg
  · simp [h]
  · simp [h]

theorem not_mem_cyclicFrom {rbgNum startRbg r turns : ℕ} (hr : r < rbgNum)
    (hturns : turns < rbgNum) :
    r ∉ cyclicFrom rbgNum startRbg ((r + 1) % rbgNum) turns := by
  intro hmem
  obtain ⟨k, hk, heq⟩ := List.mem_map.mp ((List.takeWhile_sublist _).subset hmem)
  have hk' : k < turns := List.mem_range.mp hk
  rw [Nat.mod_add_mod] at heq
  by_cases hwrap : r + 1 + k < rbgNum
  · rw [Nat.mod_eq_of_lt hwrap] at heq
    omega
  · have hsub : (r + 1 + k) % rbgNum = r + 1 + k - rbgNum := by
      rw [Nat.mod_eq_sub_mod (by omega), Nat.mod_eq_of_lt (by omega)]
    omega

theorem cyclicFrom_nodup {rbgNum startRbg r turns : ℕ} (hr : r < rbgNum)
    (hturns : turns ≤ rbgNum) : (cyclicFrom rbgNum startRbg r turns).Nodup := by
  induction turns generalizing r with
  | zero => exact List.nodup_nil
  | succ turns ih =>
    rw [cyclicFrom_succ hr]
    by_cases h : r = startRbg
    · rw [if_pos h]
      exact List.nodup_nil
    · rw [if_neg h]
      exact List.nodup_cons.mpr ⟨not_mem_cyclicFrom hr hturns,
        ih (Nat.mod_lt _ (by omega)) (by omega)⟩

theorem findRbgs_spec {rbgNum startRbg want turns r : ℕ} {rbgMap rbgMap' : List Bool}
    {found found' : List ℕ} (hr : r < rbgNum) (hturns : turns ≤ rbgNum)
    (hfound : found.length ≤ want)
    (h : findRbgs rbgNum startRbg want turns r rbgMap found = .ok (rbgMap', found')) :
    let free := (cyclicFrom rbgNum startRbg r turns).filter (FreeRbg rbgMap)
    found' = found ++ free.take (want - found.length) ∧
      rbgMap' = reserve rbgMap (free.take (want - found.length)) := by
  induction turns generalizing r rbgMap found with
  | zero =>
    unfold findRbgs at h
    by_cases hgo : found.length < want ∧ startRbg ≠ r
    · rw [if_pos hgo] at h
      cases h
    · rw [if_neg hgo] at h
      cases pure_eq_ok.mp h
      simp [cyclicFrom, reserve]
  | succ turns ih =>
    unfold findRbgs at h
    rw [cyclicFrom_succ hr]
    by_cases hgo : found.length < want ∧ startRbg ≠ r
    · rw [if_pos hgo] at h
      obtain ⟨hlt, hne⟩ := hgo
      rw [if_neg (Ne.symm hne)]
      obtain ⟨taken, hat, h⟩ := bind_eq_ok.mp h
      have hr' := vecAt_ok hat
      have hnext : (r + 1) % rbgNum < rbgNum := Nat.mod_lt _ (by omega)
      cases taken with
      | true =>
        have hskip : ¬ FreeRbg rbgMap r := by simp [FreeRbg, hr']
        simp only [List.filter_cons, hskip, decide_false, Bool.false_eq_true, if_false]
        exact ih hnext (by omega) hfound h
      | false =>
        have htake : FreeRbg rbgMap r := hr'
        -- the RBG just taken is not visited again, so the others look as before
        have hsame : (cyclicFrom rbgNum startRbg ((r + 1) % rbgNum) turns).filter
              (FreeRbg (rbgMap.set r true)) =
            (cyclicFrom rbgNum startRbg ((r + 1) % rbgNum) turns).filter (FreeRbg rbgMap) := by
          apply List.filter_congr
          intro x hx
          have hx' : r ≠ x := by
            rintro rfl
            exact not_mem_cyclicFrom hr (by omega) hx
          apply decide_eq_decide.mpr
          rw [FreeRbg, FreeRbg, List.getElem?_set_ne hx']
        obtain ⟨hf, hm⟩ := ih hnext (by omega)
          (by rw [List.length_append]; simp only [List.length_singleton]; omega) h
        rw [hsame, List.length_append, List.length_singleton] at hf hm
        obtain ⟨n, hn⟩ : ∃ n, want - found.length = n + 1 := ⟨want - found.length - 1, by omega⟩
        have hn' : want - (found.length + 1) = n := by omega
        rw [hn'] at hf hm
        simp only [List.filter_cons, htake, decide_true, if_true, hn, List.take_succ_cons]
        constructor
        · rw [hf, List.append_assoc]
          rfl
        · rw [hm]
          rfl
    · rw [if_neg hgo] at h
      obtain ⟨rfl, rfl⟩ := Prod.mk.injEq .. ▸ pure_eq_ok.mp h
      by_cases hfull : want - found.length = 0
      · simp [hfull, reserve]
      · have hstart : r = startRbg := by
          by_contra hne
          exact hgo ⟨by omega, fun heq => hne heq.symm⟩
        simp [hstart, reserve]

end NetGymSim.Gma

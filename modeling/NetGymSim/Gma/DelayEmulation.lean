import NetGymSim.Gma.LinkState
import NetGymSim.Lib.Word
import Mathlib.Logic.Function.Basic
import Mathlib.Data.List.Zip

/-!
# Delay emulation

A TSU carries one byte per link, in the order of `GetCidList`. The sender adds it, 127 at
most, to `m_emulateDelay` of the link and then lowers all links by the least delay. The
TSA reports the change of each link as a byte with the bias 127.
-/

namespace NetGymSim.Gma
open NetGymSim.Lib

def maxDelayChangePerTsu : ℕ := 127

def delayChange (owd : ℕ) : ℕ :=
  if owd = 255 then 0 else if owd ≤ maxDelayChangePerTsu then owd else maxDelayChangePerTsu

def raiseDelays : List (Cid × ℕ) → (Cid → ℕ) → ℕ → (Cid → ℕ) × List ℤ × ℕ
  | [], delay, least => (delay, [], least)
  | (cid, owd) :: rest, delay, least =>
    let raised := add32 (delay cid) (delayChange owd)
    let r := raiseDelays rest (Function.update delay cid raised) (min least raised)
    (r.1, delayChange owd :: r.2.1, r.2.2)

def lowerDelays : List Cid → ℕ → (Cid → ℕ) → (Cid → ℕ)
  | [], _, delay => delay
  | cid :: rest, least, delay =>
    lowerDelays rest least (Function.update delay cid (delay cid - least))

def emulateDelays (cidList : List Cid) (owdVector : List ℕ) (delay : Cid → ℕ) :
    (Cid → ℕ) × List ℤ :=
  let r := raiseDelays (cidList.zip owdVector) delay 4294967295
  if 0 < r.2.2 then (lowerDelays cidList r.2.2 r.1, r.2.1.map fun o => o - r.2.2)
  else (r.1, r.2.1)

/-- The bytes of `SetTsaOwdVectors`, and back as `MeasureCycleStartByTsa` reads them. -/
def encodeOffsets (offsets : List ℤ) : List ℕ := offsets.map fun o => (o + 127).toNat % 256

def decodeOffset (byte : ℕ) : ℤ := byte - 127

section Loops
variable {delay : Cid → ℕ} {least : ℕ} {cids : List Cid} {links : List (Cid × ℕ)} {cid : Cid}

theorem delayChange_le (owd : ℕ) : delayChange owd ≤ 127 := by
  unfold delayChange maxDelayChangePerTsu
  split_ifs <;> omega

theorem raiseDelays_other (h : cid ∉ links.map Prod.fst) :
    (raiseDelays links delay least).1 cid = delay cid := by
  induction links generalizing delay least with
  | nil => rfl
  | cons p rest ih =>
    obtain ⟨c, owd⟩ := p
    simp only [List.map_cons, List.mem_cons, not_or] at h
    simp only [raiseDelays, ih h.2, Function.update_of_ne h.1]

theorem raiseDelays_offsets (links : List (Cid × ℕ)) (delay : Cid → ℕ) (least : ℕ) :
    (raiseDelays links delay least).2.1 = links.map fun p => (delayChange p.2 : ℤ) := by
  induction links generalizing delay least with
  | nil => rfl
  | cons p rest ih => simp only [raiseDelays, ih, List.map_cons]

theorem raiseDelays_least_le (links : List (Cid × ℕ)) (delay : Cid → ℕ) (least : ℕ) :
    (raiseDelays links delay least).2.2 ≤ least := by
  induction links generalizing delay least with
  | nil => exact Nat.le_refl _
  | cons p rest ih => exact (ih _ _).trans (Nat.min_le_left _ _)

theorem raiseDelays_spec (delay : Cid → ℕ) (least : ℕ) (hn : (links.map Prod.fst).Nodup)
    {owd : ℕ} (hm : (cid, owd) ∈ links) :
    (raiseDelays links delay least).1 cid = add32 (delay cid) (delayChange owd) ∧
      (raiseDelays links delay least).2.2 ≤ add32 (delay cid) (delayChange owd) := by
  induction links generalizing delay least with
  | nil => exact absurd hm (List.not_mem_nil)
  | cons p rest ih =>
    obtain ⟨c, o⟩ := p
    rw [List.map_cons, List.nodup_cons] at hn
    rcases List.mem_cons.mp hm with heq | hm
    · obtain ⟨rfl, rfl⟩ := Prod.mk.inj heq
      simp only [raiseDelays]
      refine ⟨?_, (raiseDelays_least_le _ _ _).trans (Nat.min_le_right _ _)⟩
      rw [raiseDelays_other hn.1, Function.update_self]
    · have hne : cid ≠ c := fun heq =>
        hn.1 (List.mem_map.mpr ⟨(cid, owd), hm, heq⟩)
      have h := ih (Function.update delay c (add32 (delay c) (delayChange o)))
        (min least (add32 (delay c) (delayChange o))) hn.2 hm
      simpa only [raiseDelays, Function.update_of_ne hne] using h

theorem lowerDelays_other (h : cid ∉ cids) : lowerDelays cids least delay cid = delay cid := by
  induction cids generalizing delay with
  | nil => rfl
  | cons c rest ih =>
    obtain ⟨hne, hr⟩ := not_or.mp (fun hc => h (List.mem_cons.mpr hc))
    rw [lowerDelays, ih hr, Function.update_of_ne hne]

theorem lowerDelays_mem (delay : Cid → ℕ) (least : ℕ) (hn : cids.Nodup) (h : cid ∈ cids) :
    lowerDelays cids least delay cid = delay cid - least := by
  induction cids generalizing delay with
  | nil => exact absurd h List.not_mem_nil
  | cons c rest ih =>
    obtain ⟨hc, hr⟩ := List.nodup_cons.mp hn
    rcases List.mem_cons.mp h with rfl | h
    · rw [lowerDelays, lowerDelays_other hc, Function.update_self]
    · have hne : cid ≠ c := fun heq => hc (heq ▸ h)
      rw [lowerDelays, ih _ hr h, Function.update_of_ne hne]

end Loops

def Roomy (cids : List Cid) (delay : Cid → ℕ) : Prop := ∀ cid ∈ cids, delay cid + 127 < 4294967296

section Emulation
variable {cids : List Cid} {owd : List ℕ} {delay : Cid → ℕ}

theorem map_fst_zip_eq (hl : cids.length = owd.length) : (cids.zip owd).map Prod.fst = cids :=
  List.map_fst_zip (by omega)

theorem map_eq_map_zip (hl : cids.length = owd.length) (f : Cid → ℤ) :
    cids.map f = (cids.zip owd).map fun p => f p.1 := by
  calc cids.map f = ((cids.zip owd).map Prod.fst).map f := by rw [map_fst_zip_eq hl]
    _ = (cids.zip owd).map fun p => f p.1 := List.map_map

def OffsetsFit (cids : List Cid) (owd : List ℕ) (delay : Cid → ℕ) : Prop :=
  ∀ p ∈ cids.zip owd, delay p.1 + delayChange p.2 < 4294967296

theorem Roomy.fits (h : Roomy cids delay) (owd : List ℕ) : OffsetsFit cids owd delay := by
  intro p hp
  have hroom := h p.1 (List.of_mem_zip hp).1
  have := delayChange_le p.2
  omega

def leastDelay (cids : List Cid) (owd : List ℕ) (delay : Cid → ℕ) : ℕ :=
  (raiseDelays (cids.zip owd) delay 4294967295).2.2

theorem emulateDelays_offsets (cids : List Cid) (owd : List ℕ) (delay : Cid → ℕ) :
    (emulateDelays cids owd delay).2 =
      (cids.zip owd).map fun p => (delayChange p.2 : ℤ) - leastDelay cids owd delay := by
  unfold emulateDelays
  dsimp only
  split_ifs with hleast
  · rw [raiseDelays_offsets, List.map_map]
    rfl
  · rw [raiseDelays_offsets]
    refine List.map_congr_left fun p _ => ?_
    unfold leastDelay
    omega

theorem emulateDelays_delay (hn : cids.Nodup) (hl : cids.length = owd.length) {p : Cid × ℕ}
    (hp : p ∈ cids.zip owd) :
    leastDelay cids owd delay ≤ add32 (delay p.1) (delayChange p.2) ∧
      (emulateDelays cids owd delay).1 p.1 =
        add32 (delay p.1) (delayChange p.2) - leastDelay cids owd delay := by
  have hfst := map_fst_zip_eq hl
  obtain ⟨hr, hle⟩ := raiseDelays_spec delay 4294967295 (hfst.symm ▸ hn)
    (show (p.1, p.2) ∈ cids.zip owd from hp)
  refine ⟨hle, ?_⟩
  unfold emulateDelays
  dsimp only
  split_ifs with hleast
  · have hlow := lowerDelays_mem (raiseDelays (cids.zip owd) delay 4294967295).1
      (raiseDelays (cids.zip owd) delay 4294967295).2.2 hn (List.of_mem_zip hp).1
    rw [hr] at hlow
    exact hlow
  · rw [hr]
    unfold leastDelay
    omega

theorem emulateDelays_spec_iff (hn : cids.Nodup) (hl : cids.length = owd.length) :
    (emulateDelays cids owd delay).2 =
        cids.map (fun cid => (((emulateDelays cids owd delay).1 cid : ℤ) - delay cid)) ↔
      OffsetsFit cids owd delay := by
  rw [emulateDelays_offsets, map_eq_map_zip hl, List.map_inj_left]
  refine forall₂_congr fun p hp => ?_
  have hspec : leastDelay cids owd delay ≤ _ ∧ _ := emulateDelays_delay hn hl hp
  obtain ⟨hle, hd⟩ := hspec
  rw [hd]
  simp only [add32] at hle ⊢
  omega

theorem emulateDelays_spec (hn : cids.Nodup) (hl : cids.length = owd.length)
    (hroom : Roomy cids delay) :
    (emulateDelays cids owd delay).2 =
      cids.map fun cid => (((emulateDelays cids owd delay).1 cid : ℤ) - delay cid) :=
  (emulateDelays_spec_iff hn hl).mpr (hroom.fits owd)

def Normal (cids : List Cid) (delay : Cid → ℕ) : Prop := ∃ cid ∈ cids, delay cid = 0

theorem raiseDelays_attained {links : List (Cid × ℕ)} (hn : (links.map Prod.fst).Nodup)
    (delay : Cid → ℕ) (least : ℕ) :
    (raiseDelays links delay least).2.2 = least ∨
      ∃ p ∈ links, (raiseDelays links delay least).2.2 = add32 (delay p.1) (delayChange p.2) := by
  induction links generalizing delay least with
  | nil => exact .inl rfl
  | cons p rest ih =>
    obtain ⟨c, owd⟩ := p
    obtain ⟨hc, hr⟩ := List.nodup_cons.mp hn
    simp only [raiseDelays]
    rcases ih hr (Function.update delay c (add32 (delay c) (delayChange owd)))
      (min least (add32 (delay c) (delayChange owd))) with h | ⟨p, hp, h⟩
    · rcases Nat.le_total least (add32 (delay c) (delayChange owd)) with hle | hle
      · exact .inl (h.trans (Nat.min_eq_left hle))
      · exact .inr ⟨(c, owd), List.mem_cons_self, h.trans (Nat.min_eq_right hle)⟩
    · have hne : p.1 ≠ c := fun heq => hc (List.mem_map.mpr ⟨p, hp, heq⟩)
      rw [Function.update_of_ne hne] at h
      exact .inr ⟨p, List.mem_cons_of_mem _ hp, h⟩

theorem emulateDelays_normal (hn : cids.Nodup) (hl : cids.length = owd.length)
    (hne : cids ≠ []) : Normal cids (emulateDelays cids owd delay).1 := by
  have hfst := map_fst_zip_eq hl
  have hnz : ((cids.zip owd).map Prod.fst).Nodup := hfst.symm ▸ hn
  have hat : ∃ p ∈ cids.zip owd, (raiseDelays (cids.zip owd) delay 4294967295).2.2 =
      add32 (delay p.1) (delayChange p.2) := by
    rcases raiseDelays_attained hnz delay 4294967295 with h | h
    · -- the start value stays only if every delay is at the largest value
      have hz : cids.zip owd ≠ [] := fun hz => hne (by rw [← hfst, hz]; rfl)
      obtain ⟨p, hp⟩ := List.exists_mem_of_ne_nil _ hz
      have hle := (raiseDelays_spec delay 4294967295 hnz
        (show (p.1, p.2) ∈ cids.zip owd from hp)).2
      have hlt := add32_lt (delay p.1) (delayChange p.2)
      exact ⟨p, hp, by omega⟩
    · exact h
  obtain ⟨p, hp, hp'⟩ := hat
  have hmem : p.1 ∈ cids := hfst ▸ List.mem_map_of_mem hp
  have hr := (raiseDelays_spec delay 4294967295 hnz
    (show (p.1, p.2) ∈ cids.zip owd from hp)).1
  refine ⟨p.1, hmem, ?_⟩
  unfold emulateDelays
  dsimp only
  split_ifs with hleast
  · have hlow := lowerDelays_mem (raiseDelays (cids.zip owd) delay 4294967295).1
      (raiseDelays (cids.zip owd) delay 4294967295).2.2 hn hmem
    exact hlow.trans (by omega)
  · exact hr.trans (by omega)

theorem emulateDelays_uniform (hn : cids.Nodup) (hl : cids.length = owd.length)
    (hroom : Roomy cids delay) (hz : Normal cids delay)
    (hu : ∀ a ∈ owd, ∀ b ∈ owd, delayChange a = delayChange b) :
    (emulateDelays cids owd delay).1 = delay := by
  have hfst := map_fst_zip_eq hl
  have hnz : ((cids.zip owd).map Prod.fst).Nodup := hfst.symm ▸ hn
  obtain ⟨cid, hmem, hzero⟩ := hz
  obtain ⟨p, hp, rfl⟩ := List.mem_map.mp (hfst.symm ▸ hmem)
  have howd : ∀ q ∈ cids.zip owd, delayChange q.2 = delayChange p.2 := fun q hq =>
    hu _ (List.of_mem_zip hq).2 _ (List.of_mem_zip hp).2
  have hraise : ∀ q ∈ cids.zip owd,
      (raiseDelays (cids.zip owd) delay 4294967295).1 q.1 = delay q.1 + delayChange p.2 ∧
        (raiseDelays (cids.zip owd) delay 4294967295).2.2 ≤ delay q.1 + delayChange p.2 := by
    intro q hq
    have h := raiseDelays_spec delay 4294967295 hnz
      (show (q.1, q.2) ∈ cids.zip owd from hq)
    have := hroom q.1 (List.of_mem_zip hq).1
    have := delayChange_le q.2
    rw [add32_of_lt (by omega), howd q hq] at h
    exact h
  have hc := delayChange_le p.2
  have hleast : (raiseDelays (cids.zip owd) delay 4294967295).2.2 = delayChange p.2 := by
    have hle := (hraise p hp).2
    rcases raiseDelays_attained hnz delay 4294967295 with h | ⟨q, hq, h⟩
    · omega
    · have := hroom q.1 (List.of_mem_zip hq).1
      rw [howd q hq, add32_of_lt (by omega)] at h
      omega
  funext c
  unfold emulateDelays
  dsimp only
  rw [hleast]
  by_cases hcm : c ∈ cids
  · obtain ⟨q, hq, rfl⟩ := List.mem_map.mp (hfst.symm ▸ hcm)
    split_ifs
    · have hlow := lowerDelays_mem (raiseDelays (cids.zip owd) delay 4294967295).1
        (delayChange p.2) hn hcm
      have hup := (hraise q hq).1
      exact hlow.trans (by omega)
    · have hup := (hraise q hq).1
      exact hup.trans (by omega)
  · have hother : (raiseDelays (cids.zip owd) delay 4294967295).1 c = delay c :=
      raiseDelays_other (show c ∉ (cids.zip owd).map Prod.fst from hfst.symm ▸ hcm)
    split_ifs
    · exact (lowerDelays_other hcm).trans hother
    · exact hother

theorem leastDelay_le (hn : cids.Nodup) (hl : cids.length = owd.length)
    (hz : Normal cids delay) : leastDelay cids owd delay ≤ 127 := by
  have hfst := map_fst_zip_eq hl
  obtain ⟨cid, hmem, hzero⟩ := hz
  rw [← hfst] at hmem
  obtain ⟨p, hp, rfl⟩ := List.mem_map.mp hmem
  have hle : leastDelay cids owd delay ≤ _ := (emulateDelays_delay hn hl hp).1
  have hc := delayChange_le p.2
  rw [hzero, add32_of_lt (by omega)] at hle
  omega

theorem emulateDelays_offset_bounds (hn : cids.Nodup) (hl : cids.length = owd.length)
    (hz : Normal cids delay) {o : ℤ} (ho : o ∈ (emulateDelays cids owd delay).2) :
    -127 ≤ o ∧ o ≤ 127 := by
  have hleast := leastDelay_le hn hl hz
  rw [emulateDelays_offsets] at ho
  obtain ⟨p, -, rfl⟩ := List.mem_map.mp ho
  have hc := delayChange_le p.2
  omega

theorem decode_encode {o : ℤ} (h : -127 ≤ o ∧ o ≤ 128) :
    decodeOffset ((o + 127).toNat % 256) = o := by
  unfold decodeOffset
  omega

theorem decode_encodeOffsets {offsets : List ℤ} (h : ∀ o ∈ offsets, -127 ≤ o ∧ o ≤ 128) :
    (encodeOffsets offsets).map decodeOffset = offsets := by
  rw [encodeOffsets, List.map_map]
  conv_rhs => rw [← List.map_id offsets]
  exact List.map_congr_left fun o ho => decode_encode (h o ho)

end Emulation
end NetGymSim.Gma

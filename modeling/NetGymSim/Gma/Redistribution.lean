import NetGymSim.Gma.RatioConservation

/-!
# The units of a failed link

The loop of `LinkDownTsu` goes round the links and gives one unit to each that is up. A
link before the loop's position has had one unit more than a link from there on, so that no
two links that are up end more than one unit apart.
-/

namespace NetGymSim.Gma
open NetGymSim.Lib

namespace GmaRxControl
variable {linkState : LinkState} {before shares shares' : List ℕ}

def received (linkState : LinkState) (rounds pos ind : ℕ) (cid : Cid) : ℕ :=
  if linkState.isLinkUp cid then if ind < pos then rounds + 1 else rounds else 0

def InRound (linkState : LinkState) (before shares : List ℕ) (rounds pos : ℕ) : Prop :=
  ∀ (ind : ℕ) (cid : Cid), linkState.cidList[ind]? = some cid →
    shares[ind]? = before[ind]?.map (· + received linkState rounds pos ind cid)

theorem inRound_start (linkState : LinkState) (shares : List ℕ) :
    InRound linkState shares shares 0 0 := by
  intro ind cid _
  have hzero : received linkState 0 0 ind cid = 0 := by simp [received]
  rw [hzero]
  cases shares[ind]? <;> rfl

theorem InRound.wrap {rounds size : ℕ} (h : InRound linkState before shares rounds size)
    (hsize : before.length = size) : InRound linkState before shares (rounds + 1) 0 := by
  intro ind cid hcid
  rw [h ind cid hcid]
  by_cases hind : ind < size
  · have hsame : received linkState rounds size ind cid =
        received linkState (rounds + 1) 0 ind cid := by
      unfold received
      rw [if_pos hind, if_neg (Nat.not_lt_zero ind)]
    rw [hsame]
  · have hnone : before[ind]? = none := List.getElem?_eq_none (by omega)
    rw [hnone]
    rfl

theorem InRound.advance {rounds pos : ℕ} {cid : Cid}
    (h : InRound linkState before shares rounds pos) (hcid : linkState.cidList[pos]? = some cid) :
    if linkState.isLinkUp cid then
      ∀ x, shares[pos]? = some x →
        InRound linkState before (shares.set pos (x + 1)) rounds (pos + 1)
    else InRound linkState before shares rounds (pos + 1) := by
  have hother : ∀ (ind : ℕ) (c : Cid), ind ≠ pos →
      received linkState rounds (pos + 1) ind c = received linkState rounds pos ind c := by
    intro ind c hne
    have hiff : ind < pos + 1 ↔ ind < pos := by omega
    unfold received
    simp only [hiff]
  split_ifs with hup
  · intro x hx ind c hc
    by_cases hind : ind = pos
    · subst hind
      obtain rfl : cid = c := by
        rw [hcid] at hc
        exact Option.some.inj hc
      have hpos := h ind cid hcid
      have hlt : ind < shares.length := (List.getElem?_eq_some_iff.mp hx).1
      rw [List.getElem?_set_self hlt]
      rw [hx] at hpos
      cases hb : before[ind]? with
      | none =>
        rw [hb] at hpos
        cases hpos
      | some b =>
        rw [hb] at hpos
        have hvalue := Option.some.inj hpos
        unfold received at hvalue ⊢
        rw [if_pos hup, if_neg (Nat.lt_irrefl ind)] at hvalue
        rw [if_pos hup, if_pos (Nat.lt_succ_self ind), Option.map_some, hvalue]
        rfl
    · rw [List.getElem?_set_ne (Ne.symm hind), h ind c hc, hother ind c hind]
  · intro ind c hc
    by_cases hind : ind = pos
    · subst hind
      obtain rfl : cid = c := by
        rw [hcid] at hc
        exact Option.some.inj hc
      have hsame : received linkState rounds (ind + 1) ind cid =
          received linkState rounds ind ind cid := by
        unfold received
        rw [if_neg hup, if_neg hup]
      rw [h ind cid hcid, hsame]
    · rw [h ind c hc, hother ind c hind]

theorem InRound.next {rounds pos size : ℕ}
    (h : InRound linkState before shares rounds (pos + 1)) (hsize : before.length = size)
    (hpos : pos < size) (hbyte : size ≤ 256) :
    ∃ rounds', InRound linkState before shares rounds' ((pos + 1) % size % 256) := by
  by_cases hlast : pos + 1 = size
  · refine ⟨rounds + 1, ?_⟩
    rw [hlast, Nat.mod_self, Nat.zero_mod]
    rw [hlast] at h
    exact h.wrap hsize
  · refine ⟨rounds, ?_⟩
    rw [Nat.mod_eq_of_lt (show pos + 1 < size by omega), Nat.mod_eq_of_lt (by omega)]
    exact h

theorem distribute_inRound {fuel units pos size rounds : ℕ}
    (h : distribute linkState fuel shares units pos = .ok shares')
    (hround : InRound linkState before shares rounds pos) (hbefore : before.length = size)
    (hsize : shares.length = size) (hpos : pos < size) (hbyte : size ≤ 256)
    (hlt : shares.sum + units < 256) :
    ∃ rounds' pos', InRound linkState before shares' rounds' pos' := by
  induction fuel generalizing shares units pos rounds with
  | zero =>
    cases units with
    | zero =>
      cases h
      exact ⟨rounds, pos, hround⟩
    | succ units => cases h
  | succ fuel ih =>
    cases units with
    | zero =>
      cases h
      exact ⟨rounds, pos, hround⟩
    | succ units =>
      simp only [distribute, bind_eq_ok, vectorAt_eq_ok] at h
      obtain ⟨cid, hcid, h⟩ := h
      have hadvance := hround.advance hcid
      have hnext : (pos + 1) % shares.length % 256 < size := by
        have := Nat.mod_lt (pos + 1) (show 0 < shares.length by omega)
        have := Nat.mod_le ((pos + 1) % shares.length) 256
        omega
      rw [hsize] at h hnext
      split_ifs at h hadvance with hup
      · simp only [bind_eq_ok, vectorAt_eq_ok, vectorSet_eq_ok] at h
        obtain ⟨share, hshare, given, ⟨-, rfl⟩, h⟩ := h
        have hle := le_sum_of_getElem? hshare
        have hwrap : (share + 1) % 256 = share + 1 := by omega
        rw [hwrap] at h
        have hset := sum_set_add hshare (share + 1)
        obtain ⟨rounds', hround'⟩ := (hadvance share hshare).next hbefore hpos hbyte
        exact ih h hround' (List.length_set.trans hsize) hnext (by omega)
      · obtain ⟨rounds', hround'⟩ := hadvance.next hbefore hpos hbyte
        exact ih h hround' hsize hnext hlt

structure Redistributed (linkState : LinkState) (failedLink : ℕ) (before after : List ℕ) :
    Prop where
  length : after.length = before.length
  failed : after[failedLink]? = some 0
  sum : after.sum = before.sum
  down : ∀ (ind : ℕ) (cid : Cid), linkState.cidList[ind]? = some cid →
    ¬ linkState.isLinkUp cid → ind ≠ failedLink → after[ind]? = before[ind]?
  /-- Every link that is up gains, and no two by amounts more than one apart. -/
  fair : ∃ gain : ℕ → ℕ,
    (∀ (ind : ℕ) (cid : Cid), linkState.cidList[ind]? = some cid → linkState.isLinkUp cid →
      after[ind]? = before[ind]?.map (· + gain ind)) ∧
    ∀ i j : ℕ, gain i ≤ gain j + 1

theorem redistributed_of_zero {failedLink : ℕ} (h : before[failedLink]? = some 0) :
    Redistributed linkState failedLink before before where
  length := rfl
  failed := h
  sum := rfl
  down _ _ _ _ _ := rfl
  fair := by
    refine ⟨fun _ => 0, ?_, fun _ _ => Nat.zero_le _⟩
    intro ind cid _ _
    cases before[ind]? <;> rfl

theorem redistributed_of_inRound {failedLink x rounds pos : ℕ} {cid : Cid}
    (hx : before[failedLink]? = some x)
    (hround : InRound linkState (before.set failedLink 0) shares' rounds pos)
    (hcid : linkState.cidList[failedLink]? = some cid) (hdown : ¬ linkState.isLinkUp cid)
    (hlen : shares'.length = before.length) (hsum : shares'.sum = before.sum) :
    Redistributed linkState failedLink before shares' where
  length := hlen
  failed := by
    have hlt : failedLink < before.length := (List.getElem?_eq_some_iff.mp hx).1
    rw [hround failedLink cid hcid, List.getElem?_set_self hlt, received, if_neg hdown]
    rfl
  sum := hsum
  down ind c hc hcdown hne := by
    rw [hround ind c hc, List.getElem?_set_ne (Ne.symm hne), received, if_neg hcdown]
    cases before[ind]? <;> rfl
  fair := by
    refine ⟨fun ind => if ind < pos then rounds + 1 else rounds, ?_, ?_⟩
    · intro ind c hc hup
      have hne : failedLink ≠ ind := by
        rintro rfl
        rw [hcid] at hc
        exact hdown (Option.some.inj hc ▸ hup)
      rw [hround ind c hc, List.getElem?_set_ne hne, received, if_pos hup]
    · intro i j
      dsimp only
      split_ifs <;> omega

/-- With a link of the list up, the loop ends and the units of the failed link are spread
evenly over the links that are up. -/
theorem linkDownTsu_redistributes (linkState : LinkState) (s : GmaRxControl) {cid : Cid}
    {failedLink : ℕ} (hn : linkState.cidList.Nodup) (halg : s.algorithm ≠ .defaultLink)
    (hcids : s.lastSplittingIndexList.length ≤ linkState.cidList.length)
    (hburst : s.splittingBurst < 256) (hsum : s.lastSplittingIndexList.sum = s.splittingBurst)
    (hfailed : cidToIndex cid linkState.cidList = some failedLink)
    (hlt : failedLink < s.lastSplittingIndexList.length) (hdown : ¬ linkState.isLinkUp cid)
    (hup : ∃ ind < s.lastSplittingIndexList.length, ∃ c, linkState.cidList[ind]? = some c ∧
      linkState.isLinkUp c) :
    ∃ s' d, linkDownTsu linkState s cid = .ok (s', d) ∧
      d.splitIndexList = s'.lastSplittingIndexList ∧
      Redistributed linkState failedLink s.lastSplittingIndexList s'.lastSplittingIndexList := by
  have hne : s.lastSplittingIndexList ≠ [] := by
    intro hnil
    rw [hnil] at hlt
    exact absurd hlt (Nat.not_lt_zero _)
  have hcid := cidToIndex_eq_some hfailed
  have hbyte : s.lastSplittingIndexList.length ≤ 256 := by
    have : linkState.cidList.length ≤ 256 := by simpa using hn.length_le_card
    omega
  obtain ⟨share, hshare⟩ := vectorAt_total hlt
  have hx := vectorAt_eq_ok.mp hshare
  simp only [linkDownTsu]
  rw [if_neg halg, if_neg hne, hfailed]
  by_cases hzero : share = 0
  · refine ⟨s, s.decision false, bind_eq_ok.mpr ⟨share, hshare, ?_⟩, rfl, ?_⟩
    · rw [if_pos hzero]
      rfl
    · exact redistributed_of_zero (hzero ▸ hx)
  · obtain ⟨dist, hdist, c, hc, hlink⟩ := hup
    have hany : anyLinkUp linkState (List.range s.lastSplittingIndexList.length) = .ok true := by
      obtain ⟨b, hb⟩ : ∃ b,
          anyLinkUp linkState (List.range s.lastSplittingIndexList.length) = .ok b :=
        anyLinkUp_total fun ind hind => (List.mem_range.mp hind).trans_le hcids
      rw [anyLinkUp_eq_true hb (List.mem_range.mpr hdist) hc hlink] at hb
      exact hb
    obtain ⟨emptied, hemptied, hemptiedLen⟩ := vectorSet_total hlt 0
    obtain ⟨-, hset⟩ := vectorSet_eq_ok.mp hemptied
    obtain ⟨shares, hshares⟩ : ∃ shares, distribute linkState
        ((share + 1) * s.lastSplittingIndexList.length) emptied share 0 = .ok shares := by
      refine distribute_total share dist hemptiedLen hcids hbyte (by omega) hdist ?_ ?_
      · rw [Nat.zero_add, Nat.mod_eq_of_lt hdist]
        exact ⟨c, hc, hlink⟩
      · rw [Nat.succ_mul]
        omega
    have hsum₀ := sum_set_add hx 0
    rw [← hset] at hsum₀
    obtain ⟨hsum', hlen'⟩ := distribute_sum hshares (by omega)
    obtain ⟨rounds, pos, hround⟩ := distribute_inRound hshares (inRound_start linkState emptied)
      rfl rfl (show 0 < emptied.length by omega) (show emptied.length ≤ 256 by omega) (by omega)
    have hcheck : checkSum { s with lastSplittingIndexList := shares }
        s.lastSplittingIndexList.length = .ok () :=
      checkSum_total (hlen'.trans hemptiedLen) (show shares.sum = s.splittingBurst by omega) hburst
    refine ⟨{ s with lastSplittingIndexList := shares },
      decision { s with lastSplittingIndexList := shares } true,
      bind_eq_ok.mpr ⟨share, hshare, ?_⟩, rfl, ?_⟩
    · rw [if_neg hzero]
      refine bind_eq_ok.mpr ⟨true, hany, ?_⟩
      exact bind_eq_ok.mpr ⟨emptied, hemptied, bind_eq_ok.mpr ⟨shares, hshares,
        bind_eq_ok.mpr ⟨(), hcheck, rfl⟩⟩⟩
    · rw [hset] at hround
      exact redistributed_of_inRound hx hround hcid hdown (hlen'.trans hemptiedLen)
        (show shares.sum = s.lastSplittingIndexList.sum by omega)

def failedSecond : LinkState :=
  { cidList := [0, 1, 2, 3], downMap := fun _ => {1, 3} }

theorem linkDownTsu_redistributes_four :
    ∃ s' d, linkDownTsu failedSecond
        { splittingBurst := 16, lastSplittingIndexList := [4, 5, 7, 0] } 1 = .ok (s', d) ∧
      d.splitIndexList = s'.lastSplittingIndexList ∧
      Redistributed failedSecond 1 [4, 5, 7, 0] s'.lastSplittingIndexList :=
  linkDownTsu_redistributes failedSecond
    { splittingBurst := 16, lastSplittingIndexList := [4, 5, 7, 0] } (by decide) (by decide)
    (by decide) (by decide) rfl rfl (by decide) (by decide) ⟨0, by decide, 0, rfl, by decide⟩

end GmaRxControl
end NetGymSim.Gma

import NetGymSim.Internet.TcpTxHighestSack

/-!
# Blocks in another order, and again

What an update does is a matter of the set of blocks, and doing it again changes nothing, but for
two things: the update stops at a block beyond the sent data, and the highest mark slides to the
neighbour of the highest item when a block brings that neighbour in later.
-/

namespace NetGymSim.Internet.TcpTxBuffer
open Lib Network
variable {α : Type*} {items : List (TcpTxItem α)} {b b' : TcpTxBuffer α} {p i h n seq : ℕ}
  {list list' : List (ℕ × ℕ)} {block : ℕ × ℕ}

section Ahead

def Ahead (p : ℕ) (b : TcpTxBuffer α) : Prop :=
  b.highestSack.1 = none ∨ ∃ v ≤ 2147483648, b.highestSack.2 = seqAt (p + v)

theorem Ahead.of_eq (ha : Ahead p b) (h : b'.highestSack = b.highestSack) : Ahead p b' := by
  rw [Ahead, h]
  exact ha

theorem copyFrom_highestSack {calls : ℕ} {r : Option (TcpTxItem α)}
    (hc : copyFrom calls b n seq = some (b', r)) : b'.highestSack = b.highestSack := by
  have hsent : ∀ {s : ℕ} {x : TcpTxBuffer α × TcpTxItem α},
      b.getTransmittedSegment s seq = some x → x.1.highestSack = b.highestSack := by
    intro s x hx
    obtain ⟨f, -, rfl⟩ := Option.map_eq_some_iff.mp hx
    rfl
  have hnew : ∀ {s : ℕ} {x : TcpTxBuffer α × TcpTxItem α},
      b.getNewSegment s = some x → x.1.highestSack = b.highestSack := by
    intro s x hx
    obtain ⟨f, -, rfl⟩ := Option.map_eq_some_iff.mp hx
    rfl
  induction calls generalizing n r with
  | zero => cases hc
  | succ calls ih =>
    rw [copyFrom] at hc
    dsimp only at hc
    split_ifs at hc
    · cases hc
      rfl
    · obtain ⟨x, hx, heq⟩ := Option.map_eq_some_iff.mp hc
      cases heq
      exact hsent hx
    · obtain ⟨x, hx, heq⟩ := Option.map_eq_some_iff.mp hc
      cases heq
      exact hnew hx
    · exact ih hc

theorem discardLoop_highestSack {turns offset : ℕ} (hr : discardLoop turns b offset = some b') :
    b'.highestSack = b.highestSack := by
  obtain ⟨left, hsame, -⟩ := discardLoop_rule
    (P := fun _ b' => b'.highestSack = b.highestSack)
    (fun _ _ _ _ hp _ _ _ hc => (copyFrom_highestSack hc).trans hp)
    (fun _ _ _ _ hp _ _ => hp) (fun _ _ _ _ hp _ _ => hp) rfl hr
  exact hsame

theorem Placed.startSeq (hp : Placed p items) {item : TcpTxItem α} (hi : item ∈ items) :
    ∃ k ≤ bytes items, item.startSeq = seqAt (p + k) := by
  induction items generalizing p with
  | nil => cases hi
  | cons head rest ih =>
    rw [bytes_cons]
    rcases List.mem_cons.mp hi with rfl | hi
    · exact ⟨0, Nat.zero_le _, hp.1⟩
    · obtain ⟨k, hk, heq⟩ := ih hp.2 hi
      rw [Nat.add_assoc] at heq
      exact ⟨head.size + k, by omega, heq⟩

theorem sackFirst_mem {item : TcpTxItem α} (h : (sackFirst items).2 = some item) :
    item ∈ items := by
  induction items with
  | nil => cases h
  | cons head rest ih =>
    rw [sackFirst] at h
    split_ifs at h
    · exact List.mem_cons_of_mem head (ih h)
    · cases h
      exact List.mem_cons_self

theorem addRenoSack_mark (hl : Laid p b) :
    b.addRenoSack.highestSack = b.highestSack ∨ Ahead p b.addRenoSack := by
  have hsmall := hl.small
  cases hs : b.sentList with
  | nil =>
    left
    rw [TcpTxBuffer.addRenoSack, hs]
  | cons head rest =>
    cases hf : (sackFirst rest).2 with
    | none =>
      left
      rw [TcpTxBuffer.addRenoSack, hs]
      simp only [hf]
    | some item =>
      obtain ⟨k, hk, heq⟩ := hl.placed.startSeq (by
        rw [hs]
        exact List.mem_cons_of_mem head (sackFirst_mem hf))
      refine .inr (.inr ⟨k, by omega, ?_⟩)
      rw [TcpTxBuffer.addRenoSack, hs]
      simp only [hf, heq]

theorem markHeadAsLost_highestSack (b : TcpTxBuffer α) :
    b.markHeadAsLost.highestSack = b.highestSack := by
  rw [markHeadAsLost]
  split <;> rfl

theorem unsackHead_mark (hl : Laid p b) :
    b.unsackHead.highestSack = b.highestSack ∨ Ahead p b.unsackHead := by
  rw [TcpTxBuffer.unsackHead]
  cases hs : b.sentList with
  | nil => exact .inl rfl
  | cons head rest =>
    dsimp only
    split_ifs
    · have hshape : shape ({ head with sacked := false } :: rest) = shape b.sentList := by
        rw [hs]
        rfl
      have hlaid := @Laid.flags _ b
        { b with
          sentList := { head with sacked := false } :: rest
          sackedOut := b.sackedOut.sub head.size } p hl hshape rfl
      rw [markHeadAsLost_highestSack]
      apply (addRenoSack_mark hlaid.1).imp_right
      exact fun ha => ha.of_eq (markHeadAsLost_highestSack _)
    · exact .inl rfl

theorem not_seqGe_le {k : ℕ} (hk : k < 4294967296) (h : ¬seqGe (seqAt p) (seqAt (p + k))) :
    k ≤ 2147483648 := by
  simp only [seqGe, seqGt, seqAt] at h
  omega

/-- The head passes the mark, which is then unset, or stays behind it. -/
theorem Ahead.discardUpTo (hl : Laid p b) (ha : Ahead p b) (hseq : seq < 4294967296)
    (hd : b.discardUpTo seq = some b') : Ahead (p + b.discards seq) b' := by
  obtain ⟨b'', hd', hlaid, -⟩ := hl.discardUpTo hseq
  rw [hd, Option.some.injEq] at hd'
  rw [← hd', discards] at hlaid
  rw [TcpTxBuffer.discardUpTo] at hd
  rw [discards]
  by_cases hold : seqGe b.firstByteSeq seq
  · rw [if_pos hold] at hd ⊢
    cases hd
    exact ha
  rw [if_neg hold] at hd hlaid ⊢
  obtain ⟨k, hk, rfl⟩ : ∃ k < 4294967296, seq = seqAt (p + k) :=
    ⟨forward 4294967296 seq (p % 4294967296), forward_lt (by omega) _ _,
      (residue_forward p hseq).symm⟩
  have hforward : forward 4294967296 (seqAt (p + k)) b.firstByteSeq = k := by
    rw [hl.first]
    exact forward_residue p hk
  rw [hl.first] at hold
  have hhalf := not_seqGe_le hk hold
  rw [hforward] at hlaid ⊢
  obtain ⟨b₁, hloop, rfl⟩ := Option.map_eq_some_iff.mp hd
  have hkept : (b₁.followEmpty (seqAt (p + k))).highestSack = b.highestSack := by
    have hsame := discardLoop_highestSack hloop
    rw [followEmpty]
    split_ifs <;> exact hsame
  generalize hc : b₁.followEmpty (seqAt (p + k)) = c at hkept hlaid ⊢
  have hbefore : Laid (p + k) c.unsackHead := by
    apply (hlaid.flags _ _).1
    all_goals
      rw [dropHighestSack]
      split_ifs <;> rfl
  have hlist : Laid (p + k) c :=
    (hbefore.flags (shape_unsackHead c).symm (frame_unsackHead c).symm).1
  have hfirst := hbefore.first
  have hmark : c.unsackHead.highestSack = b.highestSack ∨ Ahead (p + k) c.unsackHead := by
    rw [← hkept]
    exact unsackHead_mark hlist
  generalize c.unsackHead = d at hmark hfirst
  rw [dropHighestSack]
  split_ifs with hle
  · exact .inl rfl
  rcases hmark with hmark | hmark
  · rcases ha with ha | ⟨v, hv, ha⟩
    · left
      rw [hmark, ha]
    · right
      rw [hmark, ha, hfirst] at hle
      rw [hmark, ha]
      by_cases hvk : k < v
      · exact ⟨v - k, by omega, by rw [Nat.add_assoc, Nat.add_sub_cancel' hvk.le]⟩
      · -- half of the sequence space behind is as far as half of it ahead
        have hfar : k = v + 2147483648 := by
          by_contra hne
          exact hle ((seqLe_at ⟨by omega, by omega⟩).mpr (by omega))
        refine ⟨2147483648, le_refl _, ?_⟩
        simp only [seqAt]
        omega
  · exact hmark

theorem Ahead.update (hl : Laid p b) (ha : Ahead p b) (list : List (ℕ × ℕ)) :
    Ahead p (b.update list).1 := by
  obtain ⟨sb, hu, hhigh, -⟩ := update_spec hl (tracked_begin p b) list
  have hmark := hu.mark
  generalize HighMark.takeAll b.GivesWay _ _ = s at hmark
  cases hm : s.mark with
  | none =>
    rw [hm] at hmark
    exact ha.of_eq (hhigh.trans hmark)
  | some i =>
    rw [hm] at hmark
    have hsmall := hl.small
    have hle := offset_le (layout b.sentList) i
    rw [bytes_layout] at hle
    right
    rw [hhigh, hmark]
    exact ⟨_, by omega, rfl⟩

theorem Ahead.perform (hl : Laid p b) (ha : Ahead p b) {o : Operation α} (he : b.enabled o) :
    Ahead (p + b.advance o) (b.perform o) := by
  cases o with
  | add d =>
    apply ha.of_eq
    simp only [TcpTxBuffer.perform, TcpTxBuffer.add]
    split_ifs <;> rfl
  | copyFromSequence numBytes seq =>
    obtain ⟨⟨b', r⟩, hcopy⟩ := Option.isSome_iff_exists.mp he.2.1
    simp only [TcpTxBuffer.perform, hcopy, Option.map_some, Option.getD_some]
    exact ha.of_eq (copyFrom_highestSack hcopy)
  | discardUpTo seq =>
    obtain ⟨b', hd, -⟩ := hl.discardUpTo he
    simp only [TcpTxBuffer.perform, hd, Option.getD_some]
    exact ha.discardUpTo hl he hd
  | update list => exact ha.update hl list
  | setSentListLost resetSack =>
    cases resetSack with
    | true => exact .inl rfl
    | false => exact ha.of_eq rfl
  | markHeadAsLost => exact ha.of_eq (markHeadAsLost_highestSack b)
  | deleteRetransmittedFlagFromHead =>
    apply ha.of_eq
    rw [TcpTxBuffer.perform, TcpTxBuffer.deleteRetransmittedFlagFromHead]
    split_ifs
    · rfl
    · cases b.sentList with
      | nil => rfl
      | cons head rest =>
        dsimp only
        split_ifs <;> rfl
  | addRenoSack => exact (addRenoSack_mark hl).elim ha.of_eq id
  | resetRenoSack => exact .inl rfl
  | resetLastSegmentSent =>
    apply ha.of_eq
    rw [TcpTxBuffer.perform, TcpTxBuffer.resetLastSegmentSent]
    cases b.sentList.getLast? <;> rfl
  | resetSentList => exact .inl rfl

theorem ahead_reached {headSeq maxBuffer dupAckThresh : ℕ} {es : List (Operation α)}
    (h : (scoreboard.restrict Roomy).Reaches (create (seqAt headSeq) maxBuffer dupAckThresh)
      es b) : ∃ p, Laid p b ∧ Ahead p b := by
  apply Machine.Reaches.invariant (P := fun b => ∃ p, Laid p b ∧ Ahead p b)
    ⟨headSeq, .create _ _ _, .inl rfl⟩ _ h
  intro b o hb he
  obtain ⟨p, hl, ha⟩ := hb
  exact ⟨_, hl.perform he.1 he.2, ha.perform hl he.1⟩

end Ahead

def scores (b : TcpTxBuffer α) : List (Bool × Bool) × (Option ℕ × ℕ) :=
  (b.sentList.map fun item => (item.sacked, item.lost), b.highestSack)

/-- Blocks in any order, each any number of times, and all of them again, come to the same. -/
structure OrderFree (b : TcpTxBuffer α) (list : List (ℕ × ℕ)) : Prop where
  same : ∀ list', (∀ block, block ∈ list' ↔ block ∈ list) →
    (b.update list').1.scores = (b.update list).1.scores
  again : ((b.update list).1.update list).1.scores = (b.update list).1.scores

def Covers (b : TcpTxBuffer α) (block : ℕ × ℕ) (i : ℕ) : Prop :=
  ¬b.Beyond block ∧ i ∈ covered block (layout b.sentList) b.firstByteSeq

def Fresh (b : TcpTxBuffer α) (list : List (ℕ × ℕ)) (i : ℕ) : Prop :=
  i ∉ sackedPlaces b.sentList ∧ ∃ block ∈ list, b.Covers block i

/-- No block is beyond the data unless nothing is fresh, and the highest fresh item that takes
the mark comes with its fresh neighbour in every block. -/
structure Unordered (b : TcpTxBuffer α) (list : List (ℕ × ℕ)) : Prop where
  inside : (∃ block ∈ list, b.Beyond block) → ∀ i, ¬b.Fresh list i
  together : ∀ i, b.Fresh list i → b.Fresh list (i + 1) → (∀ j, b.Fresh list j → j ≤ i + 1) →
    b.GivesWay (i + 1) → ∀ block ∈ list, b.Covers block (i + 1) → b.Covers block i

section Reports

theorem covered_sorted (block : ℕ × ℕ) (l : List (ℕ × ℕ)) (begin : ℕ) :
    (covered block l begin).Pairwise (· < ·) := by
  induction l generalizing begin with
  | nil => exact List.Pairwise.nil
  | cons item rest ih =>
    have hlater : ((covered block rest (seqAdd begin item.2)).map (· + 1)).Pairwise (· < ·) := by
      apply (ih _).map
      intro i j hij
      exact Nat.succ_lt_succ hij
    rw [covered]
    split_ifs
    · refine List.pairwise_cons.mpr ⟨fun j hj => ?_, hlater⟩
      obtain ⟨k, -, rfl⟩ := List.mem_map.mp hj
      exact Nat.succ_pos k
    · exact List.Pairwise.nil
    · exact hlater

theorem covers_of_mem (hi : i ∈ b.reports list) : ∃ block ∈ list, b.Covers block i := by
  obtain ⟨block, hblock, hin⟩ := List.mem_flatMap.mp hi
  have hnot := List.mem_takeWhile_imp hblock
  exact ⟨block, (List.takeWhile_sublist _).subset hblock, by simpa using hnot, hin⟩

theorem reports_inside (hin : ∀ block ∈ list, ¬b.Beyond block) :
    b.reports list =
      list.flatMap fun block => covered block (layout b.sentList) b.firstByteSeq := by
  rw [reports, List.takeWhile_eq_self_iff.mpr]
  intro block hblock
  simpa using hin block hblock

theorem mem_reports (hin : ∀ block ∈ list, ¬b.Beyond block) :
    i ∈ b.reports list ↔ ∃ block ∈ list, b.Covers block i := by
  refine ⟨covers_of_mem, fun h => ?_⟩
  obtain ⟨block, hblock, -, hi⟩ := h
  rw [reports_inside hin]
  exact List.mem_flatMap.mpr ⟨block, hblock, hi⟩

theorem flagged_of_sacked {is : List ℕ} (h : ∀ i ∈ is, i ∈ sackedPlaces items) :
    flagged is items = items := by
  apply List.ext_getElem?
  intro i
  rw [flagged_getElem?]
  cases hi : items[i]? with
  | none => rfl
  | some item =>
    rw [Option.map_some]
    split_ifs with hin
    · obtain ⟨x, hx, hs⟩ := mem_sackedPlaces.mp (h i hin)
      rw [hi, Option.some.injEq] at hx
      rw [flag, if_pos (hx ▸ hs)]
    · rfl

theorem flagged_congr {xs ys : List ℕ} (h : ∀ i, i ∈ xs ↔ i ∈ ys) (items : List (TcpTxItem α)) :
    flagged xs items = flagged ys items := by
  simp only [flagged, h]

theorem update_stale (hl : Laid p b) (h : ∀ i ∈ b.reports list, i ∈ sackedPlaces b.sentList) :
    (b.update list).1.scores = b.scores := by
  obtain ⟨sb, hu, hhigh, ⟨hscan, -⟩ | ⟨-, hlist⟩⟩ := update_spec hl (tracked_begin p b) list
  · obtain ⟨i, hi, hnot⟩ := hscan.2
    exact absurd (h i hi) hnot
  · have hmark := hu.mark
    rw [HighMark.takeAll_of_subset h] at hmark
    rw [scores, scores, hlist, sackedList, flagged_of_sacked h, hhigh, hmark]

theorem update_again (hl : Laid p b) (list : List (ℕ × ℕ)) :
    ((b.update list).1.update list).1.scores = (b.update list).1.scores := by
  have hu : Laid p (b.update list).1 := (hl.update list).1
  have hlayout := update_layout hl list
  have hbytes : bytes (b.update list).1.sentList = bytes b.sentList := by
    rw [← bytes_layout, hlayout, bytes_layout]
  have hreports : (b.update list).1.reports list = b.reports list := by
    simp only [reports, Beyond, hlayout, hu.first, hu.sentSize, hl.first, hl.sentSize, hbytes]
  apply update_stale hu
  intro i hi
  rw [hreports] at hi
  obtain ⟨sb, ht, -⟩ := update_spec hl (tracked_begin p b) list
  rw [update_sackedPlaces hl, ← ht.members]
  exact HighMark.mem_takeAll.mpr (.inr hi)

end Reports

section Marks

theorem GivesWay.up (hl : Laid p b) (ha : Ahead p b) {j : ℕ} (hi : b.GivesWay i) (hij : i ≤ j)
    (hlen : i < b.sentList.length) : b.GivesWay j := by
  rcases hi with hi | hi
  · exact .inl hi
  rcases ha with ha | ⟨v, hv, ha⟩
  · exact .inl ha
  have hsmall := hl.small
  have hle := offset_le (layout b.sentList) (j + 1)
  rw [bytes_layout] at hle
  have hmono : offset (layout b.sentList) (i + 1) ≤ offset (layout b.sentList) (j + 1) := by
    obtain ⟨k, rfl⟩ := Nat.exists_eq_add_of_le hij
    rw [Nat.add_right_comm, offset_add (layout b.sentList) (i + 1) k]
    exact Nat.le_add_right _ _
  have hpos : 0 < offset (layout b.sentList) (i + 1) := by
    rw [← layout_length] at hlen
    have := offset_lt (layout_solid hl.fullSent) (Nat.lt_add_one i) hlen
    omega
  right
  rw [hl.first, seqAdd_at, ha, seqLe_at ⟨by omega, by omega⟩] at hi ⊢
  omega

theorem update_mark_kept (hl : Laid p b)
    (hno : ∀ i ∈ b.reports list, i ∉ sackedPlaces b.sentList → ¬b.GivesWay i) :
    (b.update list).1.highestSack = b.highestSack := by
  obtain ⟨sb, hu, hhigh, -⟩ := update_spec hl (tracked_begin p b) list
  have hmark := hu.mark
  rw [HighMark.mark_takeAll_none rfl hno] at hmark
  exact hhigh.trans hmark

theorem update_mark_split (hl : Laid p b) {xs ys : List ℕ}
    (hsplit : b.reports list = xs ++ h :: ys) (hxs : h ∉ xs) (hnew : h ∉ sackedPlaces b.sentList)
    (htop : ∀ i ∈ b.reports list, i ∉ sackedPlaces b.sentList → i ≤ h) (hway : b.GivesWay h) :
    (b.update list).1.highestSack = designates (layout b.sentList) p h ↔
      ∀ i ∈ ys, i ∉ sackedPlaces b.sentList → i ∉ xs → i + 1 ≠ h := by
  obtain ⟨sb, hu, hhigh, -⟩ := update_spec hl (tracked_begin p b) list
  have hin : h ∈ b.reports list := by
    rw [hsplit]
    simp
  have hne := HighMark.mark_takeAll_of_start (s := ⟨sackedPlaces b.sentList, none⟩) hin hnew hway
  have hstays : (HighMark.takeAll b.GivesWay ⟨sackedPlaces b.sentList, none⟩
      (xs ++ h :: ys)).mark = some h ↔ ∀ i ∈ ys, i ∉ sackedPlaces b.sentList → i ∉ xs →
        i + 1 ≠ h :=
    HighMark.mark_takeAll_split nofun (fun _ => hway) hnew hxs (hsplit ▸ htop)
  rw [← hstays, ← hsplit, hhigh]
  have hmark := hu.mark
  generalize HighMark.takeAll b.GivesWay _ _ = s at hu hne hmark ⊢
  obtain ⟨j, hj⟩ := Option.ne_none_iff_exists'.mp hne
  rw [hj] at hmark ⊢
  rw [hmark, Option.some.injEq]
  refine ⟨designates_inj hl (hu.lt (hu.marked j hj)) (reports_lt hin), fun heq => ?_⟩
  rw [heq]

end Marks

section Order

theorem exists_first_block {β : Type*} {f : β → List ℕ} {l : List β} (hi : i ∈ l.flatMap f) :
    ∃ before x after xs ys, l = before ++ x :: after ∧ f x = xs ++ i :: ys ∧
      i ∉ before.flatMap f ++ xs := by
  induction l with
  | nil => cases hi
  | cons head rest ih =>
    by_cases hhead : i ∈ f head
    · obtain ⟨xs, ys, hsplit, hxs⟩ := List.eq_append_cons_of_mem hhead
      exact ⟨[], head, rest, xs, ys, rfl, hsplit, hxs⟩
    · rw [List.flatMap_cons, List.mem_append] at hi
      obtain ⟨before, x, after, xs, ys, rfl, hsplit, hout⟩ := ih (hi.resolve_left hhead)
      refine ⟨head :: before, x, after, xs, ys, rfl, hsplit, ?_⟩
      rw [List.flatMap_cons, List.append_assoc, List.mem_append]
      exact fun h => h.elim hhead hout

theorem Fresh.lt (h : b.Fresh list i) : i < b.sentList.length := by
  obtain ⟨-, block, -, -, hi⟩ := h
  rw [← layout_length]
  exact covered_lt hi

theorem exists_highest_fresh (hf : b.Fresh list i) :
    ∃ h, b.Fresh list h ∧ ∀ j, b.Fresh list j → j ≤ h := by
  classical
  have hmem : ∀ j, j ∈ (Finset.range b.sentList.length).filter (b.Fresh list) ↔
      b.Fresh list j := by
    intro j
    rw [Finset.mem_filter, Finset.mem_range]
    exact and_iff_right_of_imp Fresh.lt
  have hg := Finset.isGreatest_max' _ ⟨i, (hmem i).mpr hf⟩
  exact ⟨_, (hmem _).mp hg.1, fun j hj => hg.2 ((hmem j).mpr hj)⟩

theorem fresh_congr (hmem : ∀ block, block ∈ list' ↔ block ∈ list) :
    b.Fresh list' = b.Fresh list := by
  funext i
  simp only [Fresh, hmem]

theorem Unordered.congr (hu : b.Unordered list) (hmem : ∀ block, block ∈ list' ↔ block ∈ list) :
    b.Unordered list' := by
  obtain ⟨hinside, htogether⟩ := hu
  constructor
  · simpa only [hmem, fresh_congr hmem] using hinside
  · simpa only [hmem, fresh_congr hmem] using htogether

theorem fresh_reports (hin : ∀ block ∈ list, ¬b.Beyond block) :
    b.Fresh list i ↔ i ∈ b.reports list ∧ i ∉ sackedPlaces b.sentList := by
  rw [mem_reports hin, Fresh, and_comm]

theorem Unordered.mark (hu : b.Unordered list) (hl : Laid p b) (ha : Ahead p b)
    (hh : b.Fresh list h) (htop : ∀ j, b.Fresh list j → j ≤ h) :
    (b.update list).1.highestSack =
      if b.GivesWay h then designates (layout b.sentList) p h else b.highestSack := by
  have hin : ∀ block ∈ list, ¬b.Beyond block := fun block hblock hbeyond =>
    hu.inside ⟨block, hblock, hbeyond⟩ h hh
  have hnew : ∀ i ∈ b.reports list, i ∉ sackedPlaces b.sentList → b.Fresh list i :=
    fun i hi hout => (fresh_reports hin).mpr ⟨hi, hout⟩
  split_ifs with hway
  · have hreport := ((fresh_reports hin).mp hh).1
    rw [reports_inside hin] at hreport
    obtain ⟨before, block, after, xs, ys, hlist, hsplit, hout⟩ := exists_first_block hreport
    have hblock : block ∈ list := by
      rw [hlist]
      simp
    have hreports : b.reports list = (before.flatMap (fun block =>
        covered block (layout b.sentList) b.firstByteSeq) ++ xs) ++ h :: (ys ++
          after.flatMap fun block => covered block (layout b.sentList) b.firstByteSeq) := by
      rw [reports_inside hin, hlist, List.flatMap_append, List.flatMap_cons, hsplit]
      simp
    have htop' : ∀ i ∈ b.reports list, i ∉ sackedPlaces b.sentList → i ≤ h :=
      fun i hi hi' => htop i (hnew i hi hi')
    apply (update_mark_split hl hreports hout hh.1 htop' hway).mpr
    intro i hi hnot hbefore hone
    have hfresh : b.Fresh list i := by
      apply hnew i _ hnot
      rw [hreports]
      exact List.mem_append_right _ (List.mem_cons_of_mem h hi)
    rw [← hone] at hh htop hway
    have hcovers : b.Covers block (i + 1) := by
      refine ⟨hin block hblock, ?_⟩
      rw [hsplit, hone]
      simp
    have hboth := (hu.together i hfresh hh htop hway block hblock hcovers).2
    -- within a block the neighbour comes first
    have hsorted := covered_sorted block (layout b.sentList) b.firstByteSeq
    rw [hsplit] at hboth hsorted
    rw [List.mem_append, List.mem_cons] at hboth
    rcases hboth with hxs | rfl | hys
    · exact hbefore (List.mem_append_right _ hxs)
    · omega
    · have hlt := (List.pairwise_cons.mp (List.pairwise_append.mp hsorted).2.1).1 i hys
      omega
  · apply update_mark_kept hl
    intro i hi hnot hgives
    have hfresh := hnew i hi hnot
    exact hway (hgives.up hl ha (htop i hfresh) hfresh.lt)

theorem update_sentList (hl : Laid p b) (hscan : b.Scans list) :
    (b.update list).1.sentList = lostFrom b.dupAckThresh
      (markPlace
        { b with sentList := b.sackedList list, highestSack := (b.update list).1.highestSack })
      (b.sackedList list) := by
  obtain ⟨sb, -, hhigh, ⟨-, hlist⟩ | ⟨hnot, -⟩⟩ := update_spec hl (tracked_begin p b) list
  · rw [hlist, hhigh]
  · exact absurd hscan hnot

theorem Unordered.same (hu : b.Unordered list) (hl : Laid p b) (ha : Ahead p b)
    (hmem : ∀ block, block ∈ list' ↔ block ∈ list) :
    (b.update list').1.scores = (b.update list).1.scores := by
  have hu' := hu.congr hmem
  by_cases hf : ∃ i, b.Fresh list i
  · obtain ⟨i, hi⟩ := hf
    obtain ⟨h, hh, htop⟩ := exists_highest_fresh hi
    have hin : ∀ block ∈ list, ¬b.Beyond block := fun block hblock hbeyond =>
      hu.inside ⟨block, hblock, hbeyond⟩ h hh
    have hin' : ∀ block ∈ list', ¬b.Beyond block := fun block hblock =>
      hin block ((hmem block).mp hblock)
    have hreports : ∀ j, j ∈ b.reports list' ↔ j ∈ b.reports list := by
      intro j
      rw [mem_reports hin', mem_reports hin]
      simp only [hmem]
    have hsacked : b.sackedList list' = b.sackedList list := flagged_congr hreports _
    have hscan : b.Scans list := ⟨hin, h, (fresh_reports hin).mp hh⟩
    have hscan' : b.Scans list' := by
      refine ⟨hin', h, ?_, hh.1⟩
      exact (hreports h).mpr ((fresh_reports hin).mp hh).1
    have hmark : (b.update list').1.highestSack = (b.update list).1.highestSack := by
      rw [hu.mark hl ha hh htop]
      apply hu'.mark hl ha
      · rwa [fresh_congr hmem]
      · rwa [fresh_congr hmem]
    rw [scores, scores, update_sentList hl hscan, update_sentList hl hscan', hsacked, hmark]
  · have hstale : ∀ l : List (ℕ × ℕ), (∀ block, block ∈ l ↔ block ∈ list) →
        (b.update l).1.scores = b.scores := by
      intro l hl'
      apply update_stale hl
      intro i hi
      by_contra hout
      apply hf
      rw [← fresh_congr hl']
      exact ⟨i, hout, covers_of_mem hi⟩
    rw [hstale list' hmem, hstale list fun _ => Iff.rfl]

theorem OrderFree.inside (hs : b.OrderFree list) (hl : Laid p b)
    (hbeyond : ∃ block ∈ list, b.Beyond block) (i : ℕ) : ¬b.Fresh list i := by
  intro hfresh
  obtain ⟨hnot, block, hblock, hcovers⟩ := hfresh
  obtain ⟨far, hfar, hout⟩ := hbeyond
  have hnone : b.reports (far :: list) = [] := by
    rw [reports_cons, if_pos hout]
  have hsome : i ∈ b.reports (block :: list) := by
    rw [reports_cons, if_neg hcovers.1]
    exact List.mem_append_left _ hcovers.2
  have hkept : (b.update (far :: list)).1.scores = b.scores := by
    apply update_stale hl
    rw [hnone]
    exact nofun
  have hmem : ∀ x ∈ list, ∀ y, y ∈ x :: list ↔ y ∈ list := by
    intro x hx y
    rw [List.mem_cons]
    exact or_iff_right_of_imp fun heq => heq ▸ hx
  have hsame := (hs.same _ (hmem block hblock)).trans (hs.same _ (hmem far hfar)).symm
  rw [hkept] at hsame
  have hflags : (b.update (block :: list)).1.sentList.map (·.sacked) =
      b.sentList.map (·.sacked) := by
    have hfst := congrArg (List.map Prod.fst) (congrArg Prod.fst hsame)
    simp only [scores, List.map_map] at hfst
    exact hfst
  apply hnot
  obtain ⟨sb, ht, -⟩ := update_spec hl (tracked_begin p b) (block :: list)
  rw [← sackedPlaces_congr hflags, update_sackedPlaces hl, ← ht.members]
  exact HighMark.mem_takeAll.mpr (.inr hsome)

theorem OrderFree.together (hs : b.OrderFree list) (hl : Laid p b) (hi : b.Fresh list i)
    (hone : b.Fresh list (i + 1)) (htop : ∀ j, b.Fresh list j → j ≤ i + 1)
    (hway : b.GivesWay (i + 1)) (hblock : block ∈ list) (hcovers : b.Covers block (i + 1)) :
    b.Covers block i := by
  by_contra hnot
  have hin : ∀ x ∈ list, ¬b.Beyond x := fun x hx hbeyond =>
    hs.inside hl ⟨x, hx, hbeyond⟩ i hi
  obtain ⟨hfresh, first, hfirst, hcov⟩ := hi
  have hreports : ∀ x ∈ list, b.reports (x :: list) =
      covered x (layout b.sentList) b.firstByteSeq ++ b.reports list := by
    intro x hx
    rw [reports_cons, if_neg (hin x hx)]
  have htop' : ∀ x ∈ list, ∀ j ∈ b.reports (x :: list), j ∉ sackedPlaces b.sentList →
      j ≤ i + 1 := by
    intro x hx j hj hout
    apply htop j
    rw [hreports x hx, List.mem_append] at hj
    refine ⟨hout, hj.elim (fun hj => ⟨x, hx, hin x hx, hj⟩) covers_of_mem⟩
  have hmem : ∀ x ∈ list, ∀ y, y ∈ x :: list ↔ y ∈ list := by
    intro x hx y
    rw [List.mem_cons]
    exact or_iff_right_of_imp fun heq => heq ▸ hx
  have hsame := congrArg Prod.snd
    ((hs.same _ (hmem block hblock)).trans (hs.same _ (hmem first hfirst)).symm)
  dsimp only [scores] at hsame
  have hreport : i ∈ b.reports list := (mem_reports hin).mpr ⟨first, hfirst, hcov⟩
  -- the block without the neighbour first: the mark leaves the highest item again
  obtain ⟨xs, ys, hsplit, hxs⟩ := List.eq_append_cons_of_mem hcovers.2
  have hleaves : (b.update (block :: list)).1.highestSack ≠
      designates (layout b.sentList) p (i + 1) := by
    have hlist : b.reports (block :: list) = xs ++ (i + 1) :: (ys ++ b.reports list) := by
      rw [hreports block hblock, hsplit]
      simp
    rw [Ne, update_mark_split hl hlist hxs hone.1 (htop' block hblock) hway]
    intro hall
    apply hall i (List.mem_append_right _ hreport) hfresh _ rfl
    intro hmem'
    apply hnot
    refine ⟨hcovers.1, ?_⟩
    rw [hsplit]
    exact List.mem_append_left _ hmem'
  -- the neighbour first: the mark stays with the highest item
  have hstays : (b.update (first :: list)).1.highestSack =
      designates (layout b.sentList) p (i + 1) := by
    obtain ⟨us, vs, hcut, -⟩ := List.eq_append_cons_of_mem hcov.2
    have hsorted := covered_sorted first (layout b.sentList) b.firstByteSeq
    rw [hcut] at hsorted
    have htwo : i + 1 ∈ vs ++ b.reports list :=
      List.mem_append_right vs ((mem_reports hin).mpr hone.2)
    obtain ⟨ws, zs, hrest, hws⟩ := List.eq_append_cons_of_mem htwo
    have hlist : b.reports (first :: list) = (us ++ i :: ws) ++ (i + 1) :: zs := by
      rw [hreports first hfirst, hcut, List.append_assoc, List.cons_append, hrest]
      simp
    have hbefore : i + 1 ∉ us ++ i :: ws := by
      rw [List.mem_append, List.mem_cons]
      rintro (hus | heq | hin')
      · have hlt := (List.pairwise_append.mp hsorted).2.2 _ hus i List.mem_cons_self
        omega
      · omega
      · exact hws hin'
    apply (update_mark_split hl hlist hbefore hone.1 (htop' first hfirst) hway).mpr
    intro j _ _ hout heq
    have hji : j = i := by omega
    apply hout
    rw [hji]
    exact List.mem_append_right us List.mem_cons_self
  exact hleaves (hsame.trans hstays)

end Order

/-- In every buffer that operations lead to: the blocks come to the same in any order just when
none of them is beyond the data or nothing is fresh, and no block brings the highest item in
without its neighbour. -/
theorem update_order_free_iff {α : Type*} (headSeq maxBuffer dupAckThresh : ℕ)
    {es : List (Operation α)} {b : TcpTxBuffer α}
    (h : (scoreboard.restrict Roomy).Reaches (create (seqAt headSeq) maxBuffer dupAckThresh) es b)
    (list : List (ℕ × ℕ)) : b.OrderFree list ↔ b.Unordered list := by
  obtain ⟨p, hl, ha⟩ := ahead_reached h
  constructor
  · intro hs
    refine ⟨hs.inside hl, fun i hi hone htop hway block hblock hcovers => ?_⟩
    exact hs.together hl hi hone htop hway hblock hcovers
  · intro hu
    exact ⟨fun list' hmem => hu.same hl ha hmem, update_again hl list⟩

/-- Four segments across the wrap of the numbers; the second and the last two are reported. -/
theorem update_order_free_iff_across_wrap :
    let b := scoreboard.exec (create (seqAt 4294967294) 100 3)
      [.add (List.range 6), .copyFromSequence 1 4294967294, .copyFromSequence 1 4294967295,
        .copyFromSequence 1 0, .copyFromSequence 1 1]
    b.OrderFree [(0, 2), (4294967295, 0)] ↔ b.Unordered [(0, 2), (4294967295, 0)] :=
  update_order_free_iff 4294967294 100 3 (Machine.Permits.reaches (by decide +kernel)) _

/-- Two blocks of one segment each: the mark ends at the one that comes last. -/
theorem neighbours_leave_mark_by_order :
    ∃ b : TcpTxBuffer ℕ, scoreboard.Reaches (create (seqAt 1000) 100 3)
        [.add (List.range 4), .copyFromSequence 1 1000, .copyFromSequence 1 1001,
          .copyFromSequence 1 1002] b ∧ ¬b.OrderFree [(1001, 1002), (1002, 1003)] := by
  refine ⟨_, Machine.Permits.reaches (by decide +kernel), fun h => ?_⟩
  have hsame := h.same [(1002, 1003), (1001, 1002)] (by
    intro block
    simp only [List.mem_cons, List.not_mem_nil, or_false]
    exact or_comm)
  exact absurd hsame (by decide +kernel)

end NetGymSim.Internet.TcpTxBuffer

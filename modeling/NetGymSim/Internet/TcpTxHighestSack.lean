import NetGymSim.Internet.TcpTxCounterRuns
import NetGymSim.Internet.TcpTxSackSteps

/-!
# The highest SACK and what lies below it

`m_highestSack` should stay with the last sacked item, which `FindHighestSacked` looks up, and the
scan for lost items begins there. An update that slides the mark, sacks the head, or returns at a
block beyond the sent data can leave out items that should be lost.
-/

namespace NetGymSim.Internet.TcpTxBuffer
open Lib Network
variable {α : Type*} {items before after : List (TcpTxItem α)} {b : TcpTxBuffer α} {p h i : ℕ}
  {list : List (ℕ × ℕ)}

/-- The loop of `FindHighestSacked`. -/
def highestFrom : List (TcpTxItem α) → ℕ → Option ℕ × ℕ → Option ℕ × ℕ
  | [], _, ret => ret
  | item :: rest, beginOfCurrentPacket, ret =>
    highestFrom rest (seqAdd beginOfCurrentPacket item.size)
      (if item.sacked then (some item.node, beginOfCurrentPacket) else ret)

def findHighestSacked (b : TcpTxBuffer α) : Option ℕ × ℕ :=
  highestFrom b.sentList b.firstByteSeq (none, 0)

def sackedAbove (items : List (TcpTxItem α)) (i : ℕ) : ℕ :=
  (items.drop (i + 1)).countP (·.sacked)

/-- The items flagged lost are those that were and those with `t` sacked items above them, except
the sacked ones. -/
def LostExact (t : ℕ) (prior items : List (TcpTxItem α)) : Prop :=
  ∀ i x y, prior[i]? = some x → items[i]? = some y →
    (y.lost = true ↔ y.sacked = false ∧ (x.lost = true ∨ t ≤ sackedAbove items i))

section Highest

theorem highestFrom_append (before after : List (TcpTxItem α)) (begin : ℕ) (ret : Option ℕ × ℕ) :
    highestFrom (before ++ after) (seqAt begin) ret =
      highestFrom after (seqAt (begin + bytes before)) (highestFrom before (seqAt begin) ret) := by
  induction before generalizing begin ret with
  | nil => rfl
  | cons item rest ih =>
    rw [List.cons_append, highestFrom, seqAdd_at, ih, highestFrom, seqAdd_at, bytes_cons,
      Nat.add_assoc]

theorem highestFrom_clear (hc : ∀ item ∈ items, item.sacked = false) (begin : ℕ)
    (ret : Option ℕ × ℕ) : highestFrom items begin ret = ret := by
  induction items generalizing begin with
  | nil => rfl
  | cons item rest ih =>
    rw [highestFrom, hc item List.mem_cons_self]
    exact ih (fun x hx => hc x (List.mem_cons_of_mem item hx)) _

theorem not_sacked_of_above (hg : ∀ j ∈ sackedPlaces items, j ≤ h) {item : TcpTxItem α}
    (hi : items[i]? = some item) (hlt : h < i) : item.sacked = false := by
  cases hs : item.sacked with
  | false => rfl
  | true =>
    have := hg i (mem_sackedPlaces.mpr ⟨item, hi, hs⟩)
    omega

theorem clear_above (hg : ∀ j ∈ sackedPlaces items, j ≤ h) :
    ∀ item ∈ items.drop (h + 1), item.sacked = false := by
  intro item hi
  obtain ⟨k, hk⟩ := List.mem_iff_getElem?.mp hi
  rw [List.getElem?_drop] at hk
  exact not_sacked_of_above hg hk (by omega)

theorem Laid.findHighestSacked (hl : Laid p b)
    (hg : IsGreatest (sackedPlaces b.sentList : Set ℕ) h) :
    b.findHighestSacked = designates (layout b.sentList) p h := by
  obtain ⟨item, hitem, hs⟩ := mem_sackedPlaces.mp hg.1
  have hlen := (List.getElem?_eq_some_iff.mp hitem).1
  have hsplit : b.sentList = b.sentList.take h ++ item :: b.sentList.drop (h + 1) := by
    rw [← (List.getElem?_eq_some_iff.mp hitem).2, ← List.drop_eq_getElem_cons hlen,
      List.take_append_drop]
  have hnode : (layout b.sentList)[h]? = some (item.node, item.size) := by
    rw [layout, List.getElem?_map, hitem, Option.map_some]
  rw [TcpTxBuffer.findHighestSacked, hl.first, hsplit, highestFrom_append, highestFrom, if_pos hs,
    highestFrom_clear (clear_above fun j hj => hg.2 hj), ← hsplit, designates, hnode,
    offset_layout]
  rfl

theorem findHighestSacked_clear (hc : sackedPlaces b.sentList = ∅) :
    b.findHighestSacked = (none, 0) := by
  apply highestFrom_clear
  intro item hi
  obtain ⟨k, hk⟩ := List.mem_iff_getElem?.mp hi
  cases hs : item.sacked with
  | false => rfl
  | true =>
    have hmem := mem_sackedPlaces.mpr ⟨item, hk, hs⟩
    rw [hc] at hmem
    exact absurd hmem (Finset.notMem_empty k)

theorem Laid.tracked_right (hl : Laid p b) (hm : b.highestSack = b.findHighestSacked) :
    ∃ mark, HighMark.Right ⟨sackedPlaces b.sentList, mark⟩ ∧
      (mark = none → b.highestSack = (none, 0)) ∧
      Tracked p b b.sentList ⟨b.lostOut, b.sackedOut, 0, b.highestSack⟩
        ⟨sackedPlaces b.sentList, mark⟩ := by
  have hbegin := tracked_begin p b
  by_cases hempty : sackedPlaces b.sentList = ∅
  · refine ⟨none, ⟨nofun, fun _ => hempty⟩, fun _ => ?_, hbegin⟩
    rw [hm, findHighestSacked_clear hempty]
  · obtain ⟨h, hg⟩ : ∃ h, IsGreatest (sackedPlaces b.sentList : Set ℕ) h :=
      ⟨_, Finset.isGreatest_max' _ (Finset.nonempty_iff_ne_empty.mpr hempty)⟩
    refine ⟨some h, (HighMark.right_iff hg).mpr rfl, nofun, hbegin.same, rfl, hbegin.kept, ?_, ?_,
      hbegin.counted, hbegin.fresh⟩
    · rw [hm, hl.findHighestSacked hg]
    · intro j hj
      cases hj
      exact hg.1

end Highest

section Update

def sackedList (b : TcpTxBuffer α) (list : List (ℕ × ℕ)) : List (TcpTxItem α) :=
  flagged (b.reports list) b.sentList

/-- The update looks for lost items: it met no block beyond the data, and it sacked an item. -/
def Scans (b : TcpTxBuffer α) (list : List (ℕ × ℕ)) : Prop :=
  (∀ block ∈ list, ¬b.Beyond block) ∧ ∃ i ∈ b.reports list, i ∉ sackedPlaces b.sentList

theorem sackedPlaces_congr {l : List (TcpTxItem α)}
    (hs : items.map (·.sacked) = l.map (·.sacked)) : sackedPlaces items = sackedPlaces l := by
  have hat : ∀ i : ℕ, (items[i]?.map fun x : TcpTxItem α => x.sacked) =
      l[i]?.map fun x : TcpTxItem α => x.sacked := by
    intro i
    rw [← List.getElem?_map, ← List.getElem?_map, hs]
  have hflag : ∀ (m : List (TcpTxItem α)) (i : ℕ), i ∈ sackedPlaces m ↔
      (m[i]?.map fun x : TcpTxItem α => x.sacked) = some true := by
    intro m i
    rw [mem_sackedPlaces, Option.map_eq_some_iff]
  ext i
  rw [hflag, hflag, hat]

theorem sackedAbove_congr {l : List (TcpTxItem α)}
    (hs : items.map (·.sacked) = l.map (·.sacked)) (i : ℕ) :
    sackedAbove items i = sackedAbove l i := by
  have hcount : ∀ x : List (TcpTxItem α), sackedAbove x i =
      ((x.map (·.sacked)).drop (i + 1)).countP id := by
    intro x
    rw [sackedAbove, ← List.map_drop, List.countP_map]
    rfl
  rw [hcount, hcount, hs]

theorem markDue_map {β : Type*} (t : ℕ) (items : List (TcpTxItem α)) (f : TcpTxItem α → β)
    (hf : ∀ item, f { item with lost := true } = f item) :
    (markDue t items).map f = items.map f := by
  induction items with
  | nil => rfl
  | cons item rest ih =>
    rw [markDue, List.map_cons, List.map_cons, ih]
    congr 1
    split_ifs
    · exact hf item
    · rfl

theorem lostFrom_map {β : Type*} (t m : ℕ) (items : List (TcpTxItem α)) (f : TcpTxItem α → β)
    (hf : ∀ item, f { item with lost := true } = f item) :
    (lostFrom t m items).map f = items.map f := by
  cases items with
  | nil => rfl
  | cons head rest =>
    rw [lostFrom, List.map_cons, List.map_cons, List.map_append, markDue_map t _ f hf,
      ← List.map_append, List.take_append_drop]
    congr 1
    split_ifs
    · exact hf head
    · rfl

theorem update_spec (hl : Laid p b) {mark : Option ℕ}
    (ht : Tracked p b b.sentList ⟨b.lostOut, b.sackedOut, 0, b.highestSack⟩
      ⟨sackedPlaces b.sentList, mark⟩) (list : List (ℕ × ℕ)) :
    ∃ sb, Tracked p b (b.sackedList list) sb
        (HighMark.takeAll b.GivesWay ⟨sackedPlaces b.sentList, mark⟩ (b.reports list)) ∧
      (b.update list).1.highestSack = sb.highestSack ∧
      ((b.Scans list ∧ (b.update list).1.sentList = lostFrom b.dupAckThresh
          (markPlace { b with sentList := b.sackedList list, highestSack := sb.highestSack })
          (b.sackedList list)) ∨
        ¬b.Scans list ∧ (b.update list).1.sentList = b.sackedList list) := by
  have hrun := ht.sackBlocks hl list
  have hwhole := sackBlocks_whole b list b.sentList ⟨b.lostOut, b.sackedOut, 0, b.highestSack⟩
  rw [sackBlocks_items b list rfl] at hrun
  have hscans : b.Scans list ↔ (sackBlocks b.firstByteSeq b.sentSize.value list b.sentList
      ⟨b.lostOut, b.sackedOut, 0, b.highestSack⟩).2.2 = true ∧
      0 < (sackBlocks b.firstByteSeq b.sentSize.value list b.sentList
        ⟨b.lostOut, b.sackedOut, 0, b.highestSack⟩).2.1.bytesSacked := by
    rw [Scans, hwhole, hrun.fresh]
    apply and_congr_right
    intro _
    constructor
    · intro hnew
      obtain ⟨i, hi, hout⟩ := hnew
      exact ⟨i, HighMark.mem_takeAll.mpr (.inr hi), hout⟩
    · intro hnew
      obtain ⟨i, hi, hout⟩ := hnew
      exact ⟨i, (HighMark.mem_takeAll.mp hi).resolve_left hout, hout⟩
  refine ⟨_, hrun, ?_, ?_⟩
  · rw [update]
    dsimp only
    split_ifs
    · exact updateLostCount_highestSack _
    · rfl
  · rw [update]
    dsimp only
    by_cases hgo : b.Scans list
    · refine .inl ⟨hgo, ?_⟩
      rw [if_pos (hscans.mp hgo), updateLostCount_sentList, sackBlocks_items b list rfl]
      rfl
    · refine .inr ⟨hgo, ?_⟩
      rw [if_neg (hscans.not.mp hgo), sackBlocks_items b list rfl]
      rfl

theorem update_map {β : Type*} (hl : Laid p b) (list : List (ℕ × ℕ)) (f : TcpTxItem α → β)
    (hf : ∀ item, f { item with lost := true } = f item) :
    (b.update list).1.sentList.map f = (b.sackedList list).map f := by
  obtain ⟨sb, -, -, ⟨-, hlist⟩ | ⟨-, hlist⟩⟩ := update_spec hl (tracked_begin p b) list
  · rw [hlist, lostFrom_map _ _ _ f hf]
  · rw [hlist]

theorem update_layout (hl : Laid p b) (list : List (ℕ × ℕ)) :
    layout (b.update list).1.sentList = layout b.sentList :=
  (update_map hl list _ fun _ => rfl).trans (layout_flagged _ _)

theorem update_sackedPlaces (hl : Laid p b) (list : List (ℕ × ℕ)) :
    sackedPlaces (b.update list).1.sentList = sackedPlaces (b.sackedList list) :=
  sackedPlaces_congr (update_map hl list _ fun _ => rfl)

theorem designates_inj (hl : Laid p b) {i j : ℕ} (hi : i < b.sentList.length)
    (hj : j < b.sentList.length)
    (h : designates (layout b.sentList) p i = designates (layout b.sentList) p j) : i = j := by
  have hle : ∀ {m k : ℕ}, m < b.sentList.length → k < b.sentList.length →
      designates (layout b.sentList) p m = designates (layout b.sentList) p k → ¬m < k := by
    intro m k hm hk heq hlt
    have hsmall := hl.small
    have h1 := offset_le (layout b.sentList) m
    have h2 := offset_le (layout b.sentList) k
    rw [bytes_layout] at h1 h2
    rw [← layout_length] at hm
    have hmk := offset_lt (layout_solid hl.fullSent) hlt hm
    have hseq := congrArg Prod.snd heq
    simp only [designates, seqAt] at hseq
    omega
  have h1 := hle hi hj h
  have h2 := hle hj hi h.symm
  omega

theorem update_mark_iff (hl : Laid p b) (hm : b.highestSack = b.findHighestSacked)
    (list : List (ℕ × ℕ)) :
    (b.update list).1.highestSack = (b.update list).1.findHighestSacked ↔
      ¬HighMark.Slides (sackedPlaces b.sentList) (b.reports list) := by
  obtain ⟨mark, hright, hnone, ht⟩ := hl.tracked_right hm
  obtain ⟨sb, hu, hhigh, -⟩ := update_spec hl ht list
  have hlaid : Laid p (b.update list).1 := (hl.update list).1
  have hmembers := hu.members.trans (update_sackedPlaces hl list).symm
  have hstart : mark = none → ∀ i, b.GivesWay i := by
    intro hmark i
    left
    rw [hnone hmark]
  rw [← HighMark.right_takeAll_iff hright hstart, hhigh]
  generalize hs : HighMark.takeAll b.GivesWay ⟨sackedPlaces b.sentList, mark⟩ (b.reports list) = s
    at hu hmembers ⊢
  have hkept : s.mark = none → mark = none := by
    intro hsnone
    by_contra hne
    have hstill := @HighMark.mark_takeAll_ne_none b.GivesWay _ ⟨sackedPlaces b.sentList, mark⟩ hne
      (b.reports list)
    rw [hs] at hstill
    exact hstill hsnone
  have hsame := hu.mark
  by_cases hempty : s.members = ∅
  · have hsnone : s.mark = none := by
      cases hk : s.mark with
      | none => rfl
      | some i =>
        have := hu.marked i hk
        rw [hempty] at this
        exact absurd this (Finset.notMem_empty i)
    have hmark := hkept hsnone
    rw [hsnone] at hsame
    have hr : HighMark.Right s := by
      constructor
      · intro h hh
        rw [hsnone] at hh
        cases hh
      · exact fun _ => hempty
    rw [hsame, hnone hmark, findHighestSacked_clear (hmembers ▸ hempty)]
    exact iff_of_true rfl hr
  obtain ⟨h, hg⟩ : ∃ h, IsGreatest (s.members : Set ℕ) h :=
    ⟨_, Finset.isGreatest_max' _ (Finset.nonempty_iff_ne_empty.mpr hempty)⟩
  have hin := hu.lt hg.1
  rw [HighMark.right_iff hg, hlaid.findHighestSacked (hmembers ▸ hg), update_layout hl, hsame]
  cases hk : s.mark with
  | none =>
    have hmark := hkept hk
    dsimp only
    rw [hnone hmark, designates, List.getElem?_eq_getElem (by rwa [layout_length])]
    exact iff_of_false (by simp) (by simp)
  | some i =>
    dsimp only
    rw [Option.some.injEq]
    exact ⟨designates_inj hl (hu.lt (hu.marked i hk)) hin, congrArg _⟩

end Update

section Losses
variable {t : ℕ}

theorem markPlace_eq (hn : (b.sentList.map (·.node)).Nodup) {item : TcpTxItem α}
    (hi : b.sentList[h]? = some item) (hmark : b.highestSack.1 = some item.node) :
    b.markPlace = h := by
  rw [markPlace, hmark]
  cases hl : b.sentList with
  | nil =>
    rw [hl] at hi
    cases hi
  | cons head rest =>
    rw [hl, List.map_cons, List.nodup_cons] at hn
    rw [hl] at hi
    rw [List.tail_cons]
    cases h with
    | zero =>
      rw [List.getElem?_cons_zero, Option.some.injEq] at hi
      have hnone : (rest.findIdx? fun x => some x.node = some item.node) = none := by
        rw [List.findIdx?_eq_none_iff]
        intro x hx
        have hne : x.node ≠ item.node := by
          intro heq
          rw [hi, ← heq] at hn
          exact hn.1 (List.mem_map_of_mem hx)
        simp [hne]
      rw [hnone]
    | succ k =>
      rw [List.getElem?_cons_succ, List.getElem?_eq_some_iff] at hi
      obtain ⟨hk, heq⟩ := hi
      have hfind : (rest.findIdx? fun x => some x.node = some item.node) = some k := by
        rw [List.findIdx?_eq_some_iff_getElem]
        refine ⟨hk, by simp [heq], fun j hj => ?_⟩
        have hne : rest[j].node ≠ item.node := by
          have hdiff := List.nodup_iff_getElem?_ne_getElem?.mp hn.2 j k hj (by simpa using hk)
          rw [List.getElem?_map, List.getElem?_map, List.getElem?_eq_getElem hk,
            List.getElem?_eq_getElem (hj.trans hk), heq] at hdiff
          exact fun hsame => hdiff (congrArg some hsame)
        simp [hne]
      rw [hfind]

theorem lostFrom_getElem? (t m : ℕ) (items : List (TcpTxItem α)) (i : ℕ) :
    (lostFrom t m items)[i]? = items[i]?.map fun item =>
      if (i = 0 ∨ i ≤ m ∧ item.sacked = false) ∧
        t ≤ ((items.drop (i + 1)).take (m - i)).countP (·.sacked)
      then { item with lost := true } else item := by
  cases items with
  | nil => rfl
  | cons head rest =>
    cases i with
    | zero =>
      rw [lostFrom, List.getElem?_cons_zero, List.getElem?_cons_zero, Option.map_some]
      simp only [true_or, true_and, Nat.zero_add, List.drop_one, List.tail_cons, Nat.sub_zero]
    | succ k =>
      rw [lostFrom, List.getElem?_cons_succ, List.getElem?_cons_succ]
      have hlen := markDue_length t (rest.take m)
      rw [List.length_take] at hlen
      by_cases hk : k < (markDue t (rest.take m)).length
      · rw [List.getElem?_append_left hk, markDue_getElem?, List.getElem?_take_of_lt (by omega),
          List.drop_take]
        congr 1
        funext item
        have hle : k + 1 ≤ m := by omega
        simp [hle]
      · rw [List.getElem?_append_right (by omega), List.getElem?_drop]
        rcases Nat.lt_or_ge k rest.length with hlt | hge
        · rw [show m + (k - (markDue t (rest.take m)).length) = k by omega]
          have hnot : ¬k + 1 ≤ m := by omega
          simp [hnot]
        · rw [List.getElem?_eq_none hge, List.getElem?_eq_none (by omega), Option.map_none]

theorem sackedAbove_take (hg : IsGreatest (sackedPlaces items : Set ℕ) h) (hi : i ≤ h) :
    ((items.drop (i + 1)).take (h - i)).countP (·.sacked) = sackedAbove items i := by
  have hclear : (items.drop (h + 1)).countP (·.sacked) = 0 := by
    rw [List.countP_eq_zero]
    intro item hmem
    rw [clear_above (fun j hj => hg.2 hj) item hmem]
    exact Bool.false_ne_true
  have hsplit := List.take_append_drop (h - i) (items.drop (i + 1))
  rw [List.drop_drop, show i + 1 + (h - i) = h + 1 by omega] at hsplit
  rw [sackedAbove]
  conv_rhs => rw [← hsplit]
  rw [List.countP_append, hclear]
  exact (Nat.add_zero _).symm

/-- What the scan gets wrong: it takes no notice of a sacked head, and does not go above the
highest sacked item. -/
theorem lostFrom_exact_iff (hx : Exclusive items)
    (hg : IsGreatest (sackedPlaces items : Set ℕ) h) :
    (∀ i x y, items[i]? = some x → (lostFrom t h items)[i]? = some y →
      (y.lost = true ↔ x.lost = true ∨ x.sacked = false ∧ t ≤ sackedAbove items i)) ↔
    (∀ head ∈ items.head?, head.sacked = true → sackedAbove items 0 < t) ∧
      ∀ i x, items[i]? = some x → x.sacked = false → x.lost = false → t ≤ sackedAbove items i →
        ∃ j ∈ sackedPlaces items, i < j := by
  have hat : ∀ i x, items[i]? = some x → ∃ y, (lostFrom t h items)[i]? = some y ∧
      (y.lost = true ↔
        x.lost = true ∨ (i = 0 ∨ i ≤ h ∧ x.sacked = false) ∧ t ≤ sackedAbove items i) := by
    intro i x hi
    refine ⟨_, by rw [lostFrom_getElem?, hi, Option.map_some], ?_⟩
    by_cases hle : i ≤ h
    · rw [sackedAbove_take hg hle]
      split_ifs with hlose
      · exact iff_of_true rfl (.inr hlose)
      · exact (or_iff_left hlose).symm
    · have hnot : ¬(i = 0 ∨ i ≤ h ∧ x.sacked = false) := by omega
      rw [if_neg (fun hlose => hnot hlose.1)]
      exact (or_iff_left fun hlose => hnot hlose.1).symm
  have htop : ∀ i x, items[i]? = some x → x.sacked = false → i ≠ h := by
    intro i x hi hs heq
    obtain ⟨item, hitem, hsack⟩ := mem_sackedPlaces.mp hg.1
    rw [← heq, hi, Option.some.injEq] at hitem
    rw [← hitem, hs] at hsack
    cases hsack
  constructor
  · intro hall
    constructor
    · intro head hhead hs
      rw [List.head?_eq_getElem?] at hhead
      obtain ⟨y, hy, hlost⟩ := hat 0 head hhead
      by_contra hdue
      have hset := (hall 0 head y hhead hy).mp (hlost.mpr (.inr ⟨.inl rfl, Nat.le_of_not_lt hdue⟩))
      rcases hset with hl | ⟨hs', -⟩
      · exact hx head (List.mem_of_getElem? hhead) ⟨hs, hl⟩
      · rw [hs] at hs'
        cases hs'
    · intro i x hi hs hl hdue
      obtain ⟨y, hy, hlost⟩ := hat i x hi
      have hset := hlost.mp ((hall i x y hi hy).mpr (.inr ⟨hs, hdue⟩))
      rw [hl] at hset
      have hle : i ≤ h := by
        rcases hset with hset | ⟨hset, -⟩
        · cases hset
        · omega
      exact ⟨h, hg.1, lt_of_le_of_ne hle (htop i x hi hs)⟩
  · rintro ⟨hhead, hdue⟩ i x y hi hy
    obtain ⟨y', hy', hlost⟩ := hat i x hi
    rw [hy, Option.some.injEq] at hy'
    rw [hy', hlost]
    constructor
    · rintro (hl | ⟨hat0, ht⟩)
      · exact .inl hl
      · right
        refine ⟨?_, ht⟩
        rcases hat0 with rfl | ⟨-, hs⟩
        · cases hs : x.sacked with
          | false => rfl
          | true =>
            have := hhead x (by rw [List.head?_eq_getElem?, hi]; rfl) hs
            omega
        · exact hs
    · rintro (hl | ⟨hs, ht⟩)
      · exact .inl hl
      · cases hl : x.lost with
        | true => exact .inl rfl
        | false =>
          obtain ⟨j, hj, hlt⟩ := hdue i x hi hs hl ht
          have := hg.2 hj
          exact .inr ⟨.inr ⟨by omega, hs⟩, ht⟩

end Losses

section Orderly

structure Orderly (b : TcpTxBuffer α) (list : List (ℕ × ℕ)) : Prop where
  steady : ¬HighMark.Slides (sackedPlaces b.sentList) (b.reports list)
  head : b.Scans list → ∀ head ∈ (b.sackedList list).head?, head.sacked = true →
    sackedAbove (b.sackedList list) 0 < b.dupAckThresh
  due : ∀ i x, (b.sackedList list)[i]? = some x → x.sacked = false → x.lost = false →
    b.dupAckThresh ≤ sackedAbove (b.sackedList list) i →
    b.Scans list ∧ ∃ j ∈ sackedPlaces (b.sackedList list), i < j

theorem flagged_exclusive (hx : Exclusive items) (is : List ℕ) : Exclusive (flagged is items) := by
  intro y hy
  obtain ⟨i, hi⟩ := List.mem_iff_getElem?.mp hy
  rw [flagged_getElem?, Option.map_eq_some_iff] at hi
  obtain ⟨x, hxi, rfl⟩ := hi
  have hxx := hx x (List.mem_of_getElem? hxi)
  rw [flag]
  split_ifs
  · exact hxx
  · simp
  · exact hxx

theorem lostExact_iff (hl : Laid p b) (hx : Exclusive b.sentList) (list : List (ℕ × ℕ)) (t : ℕ) :
    LostExact t b.sentList (b.update list).1.sentList ↔
      ∀ i x y, (b.sackedList list)[i]? = some x → (b.update list).1.sentList[i]? = some y →
        (y.lost = true ↔
          x.lost = true ∨ x.sacked = false ∧ t ≤ sackedAbove (b.sackedList list) i) := by
  have hsacked := update_map hl list (·.sacked) fun _ => rfl
  have habove := sackedAbove_congr hsacked
  have hpoint : ∀ (i : ℕ) (x y : TcpTxItem α), b.sentList[i]? = some x →
      (b.update list).1.sentList[i]? = some y →
      ∃ x' : TcpTxItem α, (b.sackedList list)[i]? = some x' ∧ y.sacked = x'.sacked ∧
        (x'.lost = true ↔ x.lost = true ∧ x'.sacked = false) := by
    intro i x y hi hy
    have hflag := flagged_getElem? (b.reports list) b.sentList i
    rw [hi, Option.map_some] at hflag
    refine ⟨_, hflag, ?_, ?_⟩
    · have hat := congrArg (·[i]?) hsacked
      simp only [List.getElem?_map, sackedList, hflag, hy, Option.map_some,
        Option.some.injEq] at hat
      exact hat
    · have hxx := hx x (List.mem_of_getElem? hi)
      rw [flag]
      split_ifs with hin hs
      · rw [hs]
        exact iff_of_false (fun hlost => hxx ⟨hs, hlost⟩) (by simp)
      · simp
      · cases hs : x.sacked with
        | false => simp
        | true => exact iff_of_false (fun hlost => hxx ⟨hs, hlost⟩) (by simp)
  constructor
  · intro hall i x' y hx' hy
    obtain ⟨x, hi, -⟩ : ∃ x, b.sentList[i]? = some x ∧ _ := by
      rw [sackedList, flagged_getElem?] at hx'
      exact Option.map_eq_some_iff.mp hx'
    obtain ⟨x'', hx'', hys, hlost⟩ := hpoint i x y hi hy
    rw [hx', Option.some.injEq] at hx''
    rw [hall i x y hi hy, hx'', hlost, hys, habove]
    tauto
  · intro hall i x y hi hy
    obtain ⟨x', hx', hys, hlost⟩ := hpoint i x y hi hy
    rw [hall i x' y hx' hy, hlost, hys, habove]
    tauto

theorem update_lost_iff (hl : Laid p b) (hn : (b.sentList.map (·.node)).Nodup)
    (hx : Exclusive b.sentList)
    (hm : (b.update list).1.highestSack = (b.update list).1.findHighestSacked) :
    LostExact b.dupAckThresh b.sentList (b.update list).1.sentList ↔
      (b.Scans list → ∀ head ∈ (b.sackedList list).head?, head.sacked = true →
        sackedAbove (b.sackedList list) 0 < b.dupAckThresh) ∧
      ∀ i x, (b.sackedList list)[i]? = some x → x.sacked = false → x.lost = false →
        b.dupAckThresh ≤ sackedAbove (b.sackedList list) i →
        b.Scans list ∧ ∃ j ∈ sackedPlaces (b.sackedList list), i < j := by
  have hxs : Exclusive (b.sackedList list) := flagged_exclusive hx _
  obtain ⟨sb, hu, hhigh, ⟨hscan, hlist⟩ | ⟨hscan, hlist⟩⟩ :=
    update_spec hl (tracked_begin p b) list
  · obtain ⟨i, hi, hnew⟩ := id hscan.2
    obtain ⟨h, hg⟩ : ∃ h, IsGreatest (sackedPlaces (b.sackedList list) : Set ℕ) h := by
      refine ⟨_, Finset.isGreatest_max' _ ⟨i, ?_⟩⟩
      rw [← hu.members]
      exact HighMark.mem_takeAll.mpr (.inr hi)
    obtain ⟨item, hitem, -⟩ := mem_sackedPlaces.mp hg.1
    have hplace : markPlace
        { b with sentList := b.sackedList list, highestSack := sb.highestSack } = h := by
      apply markPlace_eq _ hitem
      · have hlaid : Laid p (b.update list).1 := (hl.update list).1
        have hnode := congrArg (·[h]?) (layout_flagged (b.reports list) b.sentList)
        simp only [layout, List.getElem?_map] at hnode
        rw [← hhigh, hm, hlaid.findHighestSacked (by rwa [update_sackedPlaces hl]),
          update_layout hl, designates, layout, List.getElem?_map, ← hnode, ← sackedList, hitem]
        rfl
      · have hnodes := congrArg (List.map Prod.fst) (layout_flagged (b.reports list) b.sentList)
        simp only [layout, List.map_map] at hnodes
        have hsame : (b.sackedList list).map (·.node) = b.sentList.map (·.node) := hnodes
        rwa [hsame]
    rw [hplace] at hlist
    rw [lostExact_iff hl hx, hlist, lostFrom_exact_iff hxs hg]
    simp only [hscan, true_and, forall_const]
  · rw [lostExact_iff hl hx, hlist]
    constructor
    · intro hall
      refine ⟨fun h => absurd h hscan, fun i x hi hs hlost hdue => ?_⟩
      have hset := (hall i x x hi hi).mpr (.inr ⟨hs, hdue⟩)
      rw [hlost] at hset
      cases hset
    · intro hall i x y hi hy
      rw [hi, Option.some.injEq] at hy
      rw [← hy]
      refine ⟨Or.inl, fun h => ?_⟩
      rcases h with h | ⟨hs, hdue⟩
      · exact h
      · cases hlost : x.lost with
        | true => rfl
        | false => exact absurd (hall.2 i x hi hs hlost hdue).1 hscan

theorem orderly_iff (hl : Laid p b) (hn : (b.sentList.map (·.node)).Nodup)
    (hx : Exclusive b.sentList) (hm : b.highestSack = b.findHighestSacked)
    (list : List (ℕ × ℕ)) :
    ((b.update list).1.highestSack = (b.update list).1.findHighestSacked ∧
        LostExact b.dupAckThresh b.sentList (b.update list).1.sentList) ↔ b.Orderly list := by
  constructor
  · intro h
    obtain ⟨hhead, hdue⟩ := (update_lost_iff hl hn hx h.1).mp h.2
    exact ⟨(update_mark_iff hl hm list).mp h.1, hhead, hdue⟩
  · intro h
    have hmark := (update_mark_iff hl hm list).mpr h.steady
    exact ⟨hmark, (update_lost_iff hl hn hx hmark).mpr ⟨h.head, h.due⟩⟩

end Orderly

structure Updated (α : Type*) where
  prior : Option (List (TcpTxItem α))
  buffer : TcpTxBuffer α

def updates : Machine (Updated α) (List (ℕ × ℕ)) :=
  ⟨fun _ _ => True, fun s list => ⟨some s.buffer.sentList, (s.buffer.update list).1⟩⟩

def Updated.Settled (s : Updated α) : Prop :=
  s.buffer.highestSack = s.buffer.findHighestSacked ∧
    ∀ prior ∈ s.prior, LostExact s.buffer.dupAckThresh prior s.buffer.sentList

theorem update_dupAckThresh (b : TcpTxBuffer α) (list : List (ℕ × ℕ)) :
    (b.update list).1.dupAckThresh = b.dupAckThresh := by
  rw [update]
  dsimp only
  split_ifs
  · rw [updateLostCount]
    split <;> rfl
  · rfl

structure Updated.Steady (s : Updated α) : Prop where
  laid : ∃ p, Laid p s.buffer
  nodes : (s.buffer.sentList.map (·.node)).Nodup
  length : ∀ prior ∈ s.prior, prior.length = s.buffer.sentList.length
  start : s.prior = none → Exclusive s.buffer.sentList

namespace Updated
variable {s : Updated α}

theorem Steady.next (h : s.Steady) (list : List (ℕ × ℕ)) : (updates.next s list).Steady := by
  obtain ⟨p, hl⟩ := h.laid
  have hlayout := update_layout hl list
  refine ⟨⟨p, (hl.update list).1⟩, ?_, ?_, nofun⟩
  · have hnodes := congrArg (List.map Prod.fst) hlayout
    simp only [layout, List.map_map] at hnodes
    have hsame : (s.buffer.update list).1.sentList.map (·.node) =
        s.buffer.sentList.map (·.node) := hnodes
    show ((s.buffer.update list).1.sentList.map (·.node)).Nodup
    rw [hsame]
    exact h.nodes
  · intro prior hp
    cases hp
    have hlength := congrArg List.length hlayout
    rw [layout_length, layout_length] at hlength
    exact hlength.symm

theorem Steady.exclusive (h : s.Steady) (hs : s.Settled) : Exclusive s.buffer.sentList := by
  cases hp : s.prior with
  | none => exact h.start hp
  | some prior =>
    intro y hy hboth
    obtain ⟨i, hi⟩ := List.mem_iff_getElem?.mp hy
    have hlt : i < prior.length := by
      rw [h.length prior hp]
      exact (List.getElem?_eq_some_iff.mp hi).1
    have hlost := hs.2 prior hp i prior[i] y (List.getElem?_eq_getElem hlt) hi
    have hopen := (hlost.mp hboth.2).1
    rw [hboth.1] at hopen
    cases hopen

end Updated

/-- The updates that meet their condition are those after which the mark and the lost items are
right, as long as they were. -/
theorem highest_sack_and_losses_iff {α : Type*} {p : ℕ} {b : TcpTxBuffer α} (hl : Laid p b)
    (hn : (b.sentList.map (·.node)).Nodup) (hx : Exclusive b.sentList)
    (hm : b.highestSack = b.findHighestSacked) (lists : List (List (ℕ × ℕ))) :
    (updates.restrict fun s list => s.buffer.Orderly list).Permits ⟨none, b⟩ lists ↔
      ∀ done, done <+: lists → (updates.exec ⟨none, b⟩ done).Settled := by
  apply Machine.permits_restrict_iff (P := Updated.Settled) (Q := Updated.Steady)
  · exact fun _ _ => trivial
  · exact fun s list h => h.next list
  · intro s list h hs
    obtain ⟨q, hq⟩ := h.laid
    rw [← orderly_iff hq h.nodes (h.exclusive hs) hs.1, ← update_dupAckThresh s.buffer list]
    refine and_congr_right fun _ => ⟨fun hall => hall _ rfl, fun hlost prior hp => ?_⟩
    cases hp
    exact hlost
  · exact ⟨⟨p, hl⟩, hn, nofun, fun _ => hx⟩
  · exact ⟨hm, nofun⟩

/-- Five segments across the wrap of the numbers; the second and then the last three arrive. -/
theorem highest_sack_and_losses_iff_recovery :
    let b := scoreboard.exec (create (seqAt 4294967294) 100 3)
      [.add (List.range 6), .copyFromSequence 1 4294967294, .copyFromSequence 1 4294967295,
        .copyFromSequence 1 0, .copyFromSequence 1 1, .copyFromSequence 1 2]
    (updates.restrict fun s list => s.buffer.Orderly list).Permits ⟨none, b⟩
        [[(4294967295, 0)], [(0, 3), (4294967295, 0)]] ↔
      ∀ done, done <+: [[(4294967295, 0)], [(0, 3), (4294967295, 0)]] →
        (updates.exec ⟨none, b⟩ done).Settled := by
  intro b
  obtain ⟨es, hr⟩ : ∃ es, (scoreboard.restrict Roomy).Reaches
      (create (seqAt 4294967294) 100 3) es b := ⟨_, Machine.Permits.reaches (by decide +kernel)⟩
  obtain ⟨p, hl⟩ := laid_reached hr
  have hx : ∀ item ∈ b.sentList, ¬(item.sacked = true ∧ item.lost = true) := by decide +kernel
  exact highest_sack_and_losses_iff hl (by decide +kernel) hx (by decide +kernel) _

/-- The third segment arrives and then the second: the mark goes back to the second. -/
theorem highest_sack_goes_back :
    ∃ b : TcpTxBuffer ℕ, scoreboard.Reaches (create (seqAt 1000) 100 3)
        [.add (List.range 4), .copyFromSequence 1 1000, .copyFromSequence 1 1001,
          .copyFromSequence 1 1002] b ∧
      ¬(updates.exec ⟨none, b⟩ [[(1002, 1003)], [(1001, 1003)]]).Settled :=
  ⟨_, Machine.Permits.reaches (by decide +kernel), fun h => absurd h.1 (by decide +kernel)⟩

end NetGymSim.Internet.TcpTxBuffer

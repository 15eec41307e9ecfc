import NetGymSim.Internet.TcpTxCounters
import NetGymSim.Lib.HighMark
import Mathlib.Data.List.Flatten

/-!
# One update of the scoreboard

Where the items lie does not change, so a block covers places of the list whatever was sacked
before. `flagged` is the list after the items at some places were sacked, and the highest mark
follows the places in the order in which they are met.
-/

namespace NetGymSim.Internet.TcpTxBuffer
open Lib Network
variable {α : Type*} {items rest : List (TcpTxItem α)} {b : TcpTxBuffer α} {p : ℕ}

section Places

def layout (items : List (TcpTxItem α)) : List (ℕ × ℕ) :=
  items.map fun item => (item.node, item.size)

def offset (l : List (ℕ × ℕ)) (i : ℕ) : ℕ := ((l.take i).map Prod.snd).sum

def designates (l : List (ℕ × ℕ)) (p i : ℕ) : Option ℕ × ℕ :=
  (l[i]?.map Prod.fst, seqAt (p + offset l i))

def covered (block : ℕ × ℕ) : List (ℕ × ℕ) → ℕ → List ℕ
  | [], _ => []
  | item :: rest, beginOfCurrentPacket =>
    let endOfCurrentPacket := seqAdd beginOfCurrentPacket item.2
    let later := (covered block rest endOfCurrentPacket).map (· + 1)
    if seqGe beginOfCurrentPacket block.1 ∧ seqLe endOfCurrentPacket block.2 then 0 :: later
    else if seqGt endOfCurrentPacket block.2 then []
    else later

def Beyond (b : TcpTxBuffer α) (block : ℕ × ℕ) : Prop :=
  seqLt (seqAdd b.firstByteSeq b.sentSize.value) block.1

instance (b : TcpTxBuffer α) (block : ℕ × ℕ) : Decidable (b.Beyond block) :=
  inferInstanceAs (Decidable (seqLt _ _))

def reports (b : TcpTxBuffer α) (list : List (ℕ × ℕ)) : List ℕ :=
  (list.takeWhile fun block => ¬b.Beyond block).flatMap fun block =>
    covered block (layout b.sentList) b.firstByteSeq

@[simp] theorem layout_cons (item : TcpTxItem α) (rest : List (TcpTxItem α)) :
    layout (item :: rest) = (item.node, item.size) :: layout rest := rfl

theorem layout_length (items : List (TcpTxItem α)) : (layout items).length = items.length :=
  List.length_map _

theorem offset_layout (items : List (TcpTxItem α)) (i : ℕ) :
    offset (layout items) i = bytes (items.take i) := by
  rw [offset, layout, ← List.map_take, List.map_map]
  rfl

theorem offset_succ {l : List (ℕ × ℕ)} {i : ℕ} {e : ℕ × ℕ} (h : l[i]? = some e) :
    offset l (i + 1) = offset l i + e.2 := by
  rw [offset, List.take_add_one, h, List.map_append, List.sum_append]
  rfl

theorem offset_add (l : List (ℕ × ℕ)) (i k : ℕ) :
    offset l (i + k) = offset l i + offset (l.drop i) k := by
  rw [offset, List.take_add, List.map_append, List.sum_append]
  rfl

theorem offset_lt {l : List (ℕ × ℕ)} (hl : ∀ e ∈ l, 0 < e.2) {i j : ℕ} (h : i < j)
    (hi : i < l.length) : offset l i < offset l j := by
  obtain ⟨k, rfl⟩ := Nat.exists_eq_add_of_lt h
  rw [Nat.add_assoc, offset_add, List.drop_eq_getElem_cons hi, Nat.add_comm k 1, offset_add]
  have hpos := hl l[i] (List.getElem_mem hi)
  have hone : offset (l[i] :: l.drop (i + 1)) 1 = l[i].2 := Nat.add_zero _
  omega

theorem offset_le (l : List (ℕ × ℕ)) (i : ℕ) : offset l i ≤ (l.map Prod.snd).sum := by
  conv_rhs => rw [← List.take_append_drop i l]
  rw [List.map_append, List.sum_append]
  exact Nat.le_add_right _ _

theorem covered_lt {block : ℕ × ℕ} {l : List (ℕ × ℕ)} {begin i : ℕ}
    (h : i ∈ covered block l begin) : i < l.length := by
  induction l generalizing begin i with
  | nil => cases h
  | cons item rest ih =>
    have hlater : ∀ j ∈ (covered block rest (seqAdd begin item.2)).map (· + 1),
        j < (item :: rest).length := by
      intro j hj
      obtain ⟨k, hk, rfl⟩ := List.mem_map.mp hj
      exact Nat.succ_lt_succ (ih hk)
    rw [covered] at h
    split_ifs at h
    · rcases List.mem_cons.mp h with rfl | h
      · exact Nat.succ_pos _
      · exact hlater i h
    · cases h
    · exact hlater i h

theorem reports_lt {list : List (ℕ × ℕ)} {i : ℕ} (h : i ∈ b.reports list) :
    i < b.sentList.length := by
  obtain ⟨block, -, hi⟩ := List.mem_flatMap.mp h
  rw [← layout_length]
  exact covered_lt hi

end Places

section Flags

def flag (item : TcpTxItem α) : TcpTxItem α :=
  if item.sacked then item else { item with lost := false, sacked := true }

def flagged (is : List ℕ) (items : List (TcpTxItem α)) : List (TcpTxItem α) :=
  items.mapIdx fun i item => if i ∈ is then flag item else item

@[simp] theorem flag_sacked (item : TcpTxItem α) : (flag item).sacked = true := by
  rw [flag]
  split_ifs with h
  · exact h
  · rfl

theorem flag_flag (item : TcpTxItem α) : flag (flag item) = flag item := by
  rw [flag, if_pos (flag_sacked item)]

theorem flagged_getElem? (is : List ℕ) (items : List (TcpTxItem α)) (i : ℕ) :
    (flagged is items)[i]? = items[i]?.map fun item => if i ∈ is then flag item else item :=
  List.getElem?_mapIdx

theorem flagged_append (xs ys : List ℕ) (items : List (TcpTxItem α)) :
    flagged ys (flagged xs items) = flagged (xs ++ ys) items := by
  apply List.ext_getElem?
  intro i
  rw [flagged_getElem?, flagged_getElem?, flagged_getElem?, Option.map_map]
  congr 1
  funext item
  simp only [Function.comp_apply, List.mem_append]
  by_cases hx : i ∈ xs <;> by_cases hy : i ∈ ys <;> simp [hx, hy, flag_flag]

@[simp] theorem flagged_nil (items : List (TcpTxItem α)) : flagged [] items = items := by
  apply List.ext_getElem?
  intro i
  rw [flagged_getElem?]
  simp

theorem layout_flagged (is : List ℕ) (items : List (TcpTxItem α)) :
    layout (flagged is items) = layout items := by
  apply List.ext_getElem?
  intro i
  rw [layout, layout, List.getElem?_map, List.getElem?_map, flagged_getElem?, Option.map_map]
  congr 1
  funext item
  simp only [Function.comp_apply, flag]
  split_ifs <;> rfl

theorem flagged_cons (is : List ℕ) (item : TcpTxItem α) (rest : List (TcpTxItem α)) :
    flagged (is.map (· + 1)) (item :: rest) = item :: flagged is rest := by
  rw [flagged, List.mapIdx_cons, flagged]
  simp

theorem flagged_cons_zero (is : List ℕ) (item : TcpTxItem α) (rest : List (TcpTxItem α)) :
    flagged (0 :: is.map (· + 1)) (item :: rest) = flag item :: flagged is rest := by
  rw [flagged, List.mapIdx_cons, flagged]
  simp

def scored (item : TcpTxItem α) (begin : ℕ) (sb : Scoreboard) : Scoreboard :=
  if item.sacked then sb
  else
    { lostOut := if item.lost then sb.lostOut.sub item.size else sb.lostOut
      sackedOut := sb.sackedOut.add item.size
      bytesSacked := add32 sb.bytesSacked item.size
      highestSack :=
        if sb.highestSack.1 = none ∨ seqLe sb.highestSack.2 (seqAdd begin item.size)
        then (some item.node, begin) else sb.highestSack }

theorem sackBlock_cons (block : ℕ × ℕ) (item : TcpTxItem α) (rest : List (TcpTxItem α))
    (begin : ℕ) (sb : Scoreboard) :
    sackBlock block (item :: rest) begin sb =
      if seqGe begin block.1 ∧ seqLe (seqAdd begin item.size) block.2 then
        (flag item :: (sackBlock block rest (seqAdd begin item.size) (scored item begin sb)).1,
          (sackBlock block rest (seqAdd begin item.size) (scored item begin sb)).2)
      else if seqGt (seqAdd begin item.size) block.2 then (item :: rest, sb)
      else (item :: (sackBlock block rest (seqAdd begin item.size) sb).1,
        (sackBlock block rest (seqAdd begin item.size) sb).2) := by
  rw [sackBlock, flag, scored]
  cases item.sacked <;> rfl

theorem sackBlock_items (block : ℕ × ℕ) (items : List (TcpTxItem α)) (begin : ℕ)
    (sb : Scoreboard) :
    (sackBlock block items begin sb).1 = flagged (covered block (layout items) begin) items := by
  induction items generalizing begin sb with
  | nil => rfl
  | cons item rest ih =>
    rw [sackBlock_cons, layout_cons, covered]
    split_ifs
    · rw [flagged_cons_zero, ih]
    · rw [flagged_nil]
    · rw [flagged_cons, ih]

end Flags

section Marks

def GivesWay (b : TcpTxBuffer α) (i : ℕ) : Prop :=
  b.highestSack.1 = none ∨
    seqLe b.highestSack.2 (seqAdd b.firstByteSeq (offset (layout b.sentList) (i + 1)))

instance (b : TcpTxBuffer α) : DecidablePred b.GivesWay := fun i =>
  inferInstanceAs (Decidable (b.highestSack.1 = none ∨
    seqLe b.highestSack.2 (seqAdd b.firstByteSeq (offset (layout b.sentList) (i + 1)))))

def sackedPlaces (items : List (TcpTxItem α)) : Finset ℕ :=
  (Finset.range items.length).filter fun i => (items[i]?.any fun item => item.sacked) = true

theorem mem_sackedPlaces {i : ℕ} :
    i ∈ sackedPlaces items ↔ ∃ item, items[i]? = some item ∧ item.sacked = true := by
  rw [sackedPlaces, Finset.mem_filter, Finset.mem_range, Option.any_eq_true]
  constructor
  · exact And.right
  · intro h
    obtain ⟨item, hi, hs⟩ := h
    exact ⟨(List.getElem?_eq_some_iff.mp hi).1, item, hi, hs⟩

/-- The list and the scoreboard in the middle of an update of `b`, by the sacked places and by the
place that took the mark in this update. -/
structure Tracked (p : ℕ) (b : TcpTxBuffer α) (items : List (TcpTxItem α)) (sb : Scoreboard)
    (s : HighMark) : Prop where
  same : layout items = layout b.sentList
  members : s.members = sackedPlaces items
  kept : sackedPlaces b.sentList ⊆ s.members
  mark : sb.highestSack = match s.mark with
    | none => b.highestSack
    | some i => designates (layout b.sentList) p i
  marked : ∀ i ∈ s.mark, i ∈ s.members
  counted : sb.bytesSacked + tally (·.sacked) b.sentList = tally (·.sacked) items
  fresh : 0 < sb.bytesSacked ↔ ∃ i ∈ s.members, i ∉ sackedPlaces b.sentList

theorem Tracked.lt {items : List (TcpTxItem α)} {sb : Scoreboard} {s : HighMark}
    (h : Tracked p b items sb s) {i : ℕ} (hi : i ∈ s.members) : i < b.sentList.length := by
  rw [h.members] at hi
  have hlength := congrArg List.length h.same
  rw [layout_length, layout_length] at hlength
  rw [← hlength]
  exact Finset.mem_range.mp (Finset.mem_of_mem_filter i hi)

theorem layout_solid (hf : Full items) : ∀ e ∈ layout items, 0 < e.2 := by
  intro e he
  obtain ⟨item, hi, rfl⟩ := List.mem_map.mp he
  exact hf.size_pos hi

theorem bytes_layout (items : List (TcpTxItem α)) :
    ((layout items).map Prod.snd).sum = bytes items := by
  rw [layout, List.map_map]
  rfl

theorem Laid.offset_le_iff (hl : Laid p b) {m i : ℕ} (hm : m < b.sentList.length)
    (hi : i < b.sentList.length) :
    seqLe (seqAt (p + offset (layout b.sentList) m))
      (seqAt (p + offset (layout b.sentList) (i + 1))) ↔ m ≤ i + 1 := by
  have hsmall := hl.small
  have h1 := offset_le (layout b.sentList) m
  have h2 := offset_le (layout b.sentList) (i + 1)
  rw [bytes_layout] at h1 h2
  have hsolid := layout_solid hl.fullSent
  rw [← layout_length] at hm hi
  rw [seqLe_at ⟨by omega, by omega⟩]
  constructor
  · intro hle
    by_contra hlt
    have hnext : i + 1 < (layout b.sentList).length := by omega
    have := offset_lt hsolid (Nat.lt_of_not_le hlt) hnext
    omega
  · intro hle
    rcases Nat.eq_or_lt_of_le hle with rfl | hlt
    · exact le_refl _
    · have := offset_lt hsolid hlt hm
      omega

theorem sackedPlaces_flag (before : List (TcpTxItem α)) (item : TcpTxItem α)
    (rest : List (TcpTxItem α)) :
    sackedPlaces (before ++ flag item :: rest) =
      insert before.length (sackedPlaces (before ++ item :: rest)) := by
  have hother : ∀ j, before.length ≠ j →
      (before ++ flag item :: rest)[j]? = (before ++ item :: rest)[j]? := by
    intro j hne
    rcases Nat.lt_or_ge j before.length with hlt | hge
    · rw [List.getElem?_append_left hlt, List.getElem?_append_left hlt]
    · rw [List.getElem?_append_right hge, List.getElem?_append_right hge,
        List.getElem?_cons, List.getElem?_cons, if_neg (by omega), if_neg (by omega)]
  ext j
  rw [Finset.mem_insert, mem_sackedPlaces, mem_sackedPlaces]
  by_cases hj : before.length = j
  · rw [← hj]
    exact iff_of_true ⟨flag item, by simp, flag_sacked item⟩ (.inl rfl)
  · rw [hother j hj]
    exact (or_iff_right (Ne.symm hj)).symm

theorem Tracked.moved (hl : Laid p b) {before rest : List (TcpTxItem α)} {item : TcpTxItem α}
    {sb : Scoreboard} {s : HighMark} (h : Tracked p b (before ++ item :: rest) sb s)
    (hsacked : ¬item.sacked = true) :
    (scored item (seqAt (p + bytes before)) sb).highestSack =
      match HighMark.moved b.GivesWay before.length s.mark with
      | none => b.highestSack
      | some i => designates (layout b.sentList) p i := by
  have hnode : (layout b.sentList)[before.length]? = some (item.node, item.size) := by
    rw [← h.same, layout, List.getElem?_map]
    simp
  have hlen : before.length < b.sentList.length := by
    rw [← layout_length b.sentList]
    exact (List.getElem?_eq_some_iff.mp hnode).1
  have hoffset : offset (layout b.sentList) before.length = bytes before := by
    rw [← h.same, offset_layout, List.take_left]
  have hnext := offset_succ hnode
  have htaken : (some item.node, seqAt (p + bytes before)) =
      designates (layout b.sentList) p before.length := by
    rw [designates, hnode, hoffset]
    rfl
  have hmark := h.mark
  rw [scored, if_neg hsacked]
  dsimp only
  rw [seqAdd_at, htaken]
  cases hm : s.mark with
  | none =>
    rw [hm] at hmark
    dsimp only at hmark
    have hway : (sb.highestSack.1 = none ∨
        seqLe sb.highestSack.2 (seqAt (p + bytes before + item.size))) ↔
          b.GivesWay before.length := by
      rw [GivesWay, hmark, hnext, hoffset, hl.first, seqAdd_at, Nat.add_assoc]
    rw [HighMark.moved]
    by_cases hgives : b.GivesWay before.length
    · rw [if_pos (hway.mpr hgives), if_pos hgives]
    · rw [if_neg (hway.not.mpr hgives), if_neg hgives, hmark]
  | some m =>
    rw [hm] at hmark
    dsimp only at hmark
    have hmlen := h.lt (h.marked m hm)
    have hway : (sb.highestSack.1 = none ∨
        seqLe sb.highestSack.2 (seqAt (p + bytes before + item.size))) ↔
          m ≤ before.length + 1 := by
      rw [← hl.offset_le_iff hmlen hlen, hnext, hoffset, hmark, designates,
        List.getElem?_eq_getElem (by rwa [layout_length]), Nat.add_assoc]
      exact or_iff_right (Option.some_ne_none _)
    rw [HighMark.moved]
    by_cases hle : m ≤ before.length + 1
    · rw [if_pos (hway.mpr hle), if_pos hle]
    · rw [if_neg (hway.not.mpr hle), if_neg hle, hmark]

theorem Tracked.item (hl : Laid p b) {before rest : List (TcpTxItem α)} {item : TcpTxItem α}
    {sb : Scoreboard} {s : HighMark} (h : Tracked p b (before ++ item :: rest) sb s) :
    Tracked p b (before ++ flag item :: rest) (scored item (seqAt (p + bytes before)) sb)
      (s.take b.GivesWay before.length) := by
  by_cases hsacked : item.sacked = true
  · have hmem : before.length ∈ s.members := by
      rw [h.members, mem_sackedPlaces]
      exact ⟨item, by simp, hsacked⟩
    rw [flag, scored, if_pos hsacked, if_pos hsacked, HighMark.take_of_mem hmem]
    exact h
  have hnot : before.length ∉ s.members := by
    rw [h.members, mem_sackedPlaces]
    intro hmem
    obtain ⟨x, hx, hs⟩ := hmem
    rw [List.getElem?_append_right (Nat.le_refl _), Nat.sub_self, List.getElem?_cons_zero] at hx
    cases hx
    exact hsacked hs
  have hsize : (flag item).size = item.size := by
    rw [flag, if_neg hsacked]
    rfl
  have hsmall := hl.small
  have hle := tally_le (·.sacked) (before ++ flag item :: rest)
  have hbytes : bytes (before ++ item :: rest) = bytes b.sentList := by
    rw [← bytes_layout, h.same, bytes_layout]
  have hcounted := h.counted
  rw [tally_append, tally_cons, if_neg hsacked] at hcounted
  rw [bytes_append, bytes_cons] at hbytes
  rw [tally_append, tally_cons, if_pos (flag_sacked item), bytes_append, bytes_cons, hsize] at hle
  have hsum : (scored item (seqAt (p + bytes before)) sb).bytesSacked =
      sb.bytesSacked + item.size := by
    rw [scored, if_neg hsacked]
    exact add32_of_lt (by omega)
  have hpos : 0 < item.size := by
    have hlayout : (item.node, item.size) ∈ layout b.sentList := by
      rw [← h.same]
      exact List.mem_map_of_mem (by simp)
    exact layout_solid hl.fullSent _ hlayout
  rw [HighMark.take_of_notMem hnot]
  refine ⟨?_, ?_, ?_, h.moved hl hsacked, ?_, ?_, ?_⟩
  · rw [← h.same, layout, layout, List.map_append, List.map_append, List.map_cons, List.map_cons,
      hsize, flag, if_neg hsacked]
  · rw [sackedPlaces_flag, h.members]
  · exact h.kept.trans (Finset.subset_insert _ _)
  · intro j hj
    dsimp only at hj ⊢
    rw [Finset.mem_insert]
    cases hm : s.mark with
    | none =>
      simp only [hm, HighMark.moved] at hj
      split_ifs at hj <;> cases hj
      exact .inl rfl
    | some m =>
      simp only [hm, HighMark.moved] at hj
      split_ifs at hj <;> cases hj
      · exact .inl rfl
      · exact .inr (h.marked _ hm)
  · rw [hsum, tally_append, tally_cons, if_pos (flag_sacked item), hsize]
    omega
  · rw [hsum]
    exact iff_of_true (by omega)
      ⟨_, Finset.mem_insert_self _ _, fun hmem => hnot (h.kept hmem)⟩

theorem Tracked.sackBlock (hl : Laid p b) (block : ℕ × ℕ) {before rest : List (TcpTxItem α)}
    {sb : Scoreboard} {s : HighMark} (h : Tracked p b (before ++ rest) sb s) :
    Tracked p b
      (before ++ (TcpTxBuffer.sackBlock block rest (seqAt (p + bytes before)) sb).1)
      (TcpTxBuffer.sackBlock block rest (seqAt (p + bytes before)) sb).2
      (s.takeAll b.GivesWay ((covered block (layout rest) (seqAt (p + bytes before))).map
        (before.length + ·))) := by
  induction rest generalizing before sb s with
  | nil => exact h
  | cons item rest ih =>
    rw [sackBlock_cons, layout_cons, covered, seqAdd_at]
    have hshift : ∀ is : List ℕ, (is.map (· + 1)).map (before.length + ·) =
        is.map ((before ++ [item]).length + ·) := by
      intro is
      rw [List.map_map, List.length_append]
      congr 1
      funext i
      simp only [Function.comp_apply, List.length_singleton]
      omega
    have hbytes : ∀ x : TcpTxItem α, x.size = item.size →
        p + bytes (before ++ [x]) = p + bytes before + item.size := by
      intro x hx
      rw [bytes_append, bytes_cons, bytes_nil, hx]
      omega
    split_ifs with hin hout
    · have hnext := h.item hl
      rw [List.append_cons] at hnext
      have hrest := ih hnext
      have hflag : (flag item).size = item.size := by
        rw [flag]
        split_ifs <;> rfl
      rw [hbytes _ hflag, List.append_assoc] at hrest
      rw [List.map_cons, hshift, Nat.add_zero]
      have hlen : (before ++ [flag item]).length = (before ++ [item]).length := by simp
      rw [hlen] at hrest
      exact hrest
    · exact h
    · rw [List.append_cons] at h
      have hrest := ih h
      rw [hbytes item rfl, List.append_assoc] at hrest
      rw [hshift]
      exact hrest

theorem sackBlocks_cons (b : TcpTxBuffer α) (block : ℕ × ℕ) (list : List (ℕ × ℕ))
    (items : List (TcpTxItem α)) (sb : Scoreboard) :
    TcpTxBuffer.sackBlocks b.firstByteSeq b.sentSize.value (block :: list) items sb =
      if b.Beyond block then (items, sb, false)
      else TcpTxBuffer.sackBlocks b.firstByteSeq b.sentSize.value list
        (TcpTxBuffer.sackBlock block items b.firstByteSeq sb).1
        (TcpTxBuffer.sackBlock block items b.firstByteSeq sb).2 := rfl

theorem reports_cons (b : TcpTxBuffer α) (block : ℕ × ℕ) (list : List (ℕ × ℕ)) :
    b.reports (block :: list) =
      if b.Beyond block then []
      else covered block (layout b.sentList) b.firstByteSeq ++ b.reports list := by
  rw [reports, List.takeWhile_cons]
  by_cases hbeyond : b.Beyond block
  · simp [hbeyond]
  · simp [hbeyond, reports]

theorem Tracked.sackBlocks (hl : Laid p b) (list : List (ℕ × ℕ)) {items : List (TcpTxItem α)}
    {sb : Scoreboard} {s : HighMark} (h : Tracked p b items sb s) :
    Tracked p b (TcpTxBuffer.sackBlocks b.firstByteSeq b.sentSize.value list items sb).1
      (TcpTxBuffer.sackBlocks b.firstByteSeq b.sentSize.value list items sb).2.1
      (s.takeAll b.GivesWay (b.reports list)) := by
  induction list generalizing items sb s with
  | nil => exact h
  | cons block rest ih =>
    rw [sackBlocks_cons, reports_cons]
    by_cases hbeyond : b.Beyond block
    · rw [if_pos hbeyond, if_pos hbeyond]
      exact h
    · rw [if_neg hbeyond, if_neg hbeyond, HighMark.takeAll_append]
      apply ih
      have hblock : Tracked p b ([] ++ items) sb s := h
      have hwalk := hblock.sackBlock hl block
      simp only [List.nil_append, bytes_nil, Nat.add_zero, List.length_nil, Nat.zero_add,
        List.map_id', ← hl.first, h.same] at hwalk
      exact hwalk

theorem sackBlocks_items (b : TcpTxBuffer α) (list : List (ℕ × ℕ)) {items : List (TcpTxItem α)}
    (hl : layout items = layout b.sentList) (sb : Scoreboard) :
    (TcpTxBuffer.sackBlocks b.firstByteSeq b.sentSize.value list items sb).1 =
      flagged (b.reports list) items := by
  induction list generalizing items sb with
  | nil => exact (flagged_nil items).symm
  | cons block rest ih =>
    rw [sackBlocks_cons, reports_cons]
    split_ifs
    · exact (flagged_nil items).symm
    · rw [ih (by rw [sackBlock_items, layout_flagged, hl]), sackBlock_items, hl, flagged_append]

theorem sackBlocks_whole (b : TcpTxBuffer α) (list : List (ℕ × ℕ)) (items : List (TcpTxItem α))
    (sb : Scoreboard) :
    (TcpTxBuffer.sackBlocks b.firstByteSeq b.sentSize.value list items sb).2.2 = true ↔
      ∀ block ∈ list, ¬b.Beyond block := by
  induction list generalizing items sb with
  | nil => exact iff_of_true rfl nofun
  | cons block rest ih =>
    rw [sackBlocks_cons, List.forall_mem_cons]
    split_ifs with hbeyond
    · exact iff_of_false (by simp) fun h => h.1 hbeyond
    · rw [ih, and_iff_right hbeyond]

theorem tracked_begin (p : ℕ) (b : TcpTxBuffer α) :
    Tracked p b b.sentList ⟨b.lostOut, b.sackedOut, 0, b.highestSack⟩
      ⟨sackedPlaces b.sentList, none⟩ where
  same := rfl
  members := rfl
  kept := Finset.Subset.refl _
  mark := rfl
  marked := nofun
  counted := Nat.zero_add _
  fresh := iff_of_false (Nat.lt_irrefl 0) fun h => by
    obtain ⟨i, hi, hnot⟩ := h
    exact hnot hi

end Marks

section Lost
variable {t : ℕ}

def markDue (t : ℕ) : List (TcpTxItem α) → List (TcpTxItem α)
  | [] => []
  | item :: rest =>
    (if ¬item.sacked ∧ t ≤ rest.countP (·.sacked) then { item with lost := true } else item) ::
      markDue t rest

theorem markDue_length (t : ℕ) (items : List (TcpTxItem α)) :
    (markDue t items).length = items.length := by
  induction items with
  | nil => rfl
  | cons item rest ih => rw [markDue, List.length_cons, List.length_cons, ih]

theorem markDue_getElem? (t : ℕ) (items : List (TcpTxItem α)) (i : ℕ) :
    (markDue t items)[i]? = items[i]?.map fun item =>
      if ¬item.sacked ∧ t ≤ (items.drop (i + 1)).countP (·.sacked) then { item with lost := true }
      else item := by
  induction items generalizing i with
  | nil => rfl
  | cons item rest ih =>
    cases i with
    | zero => rfl
    | succ i => exact ih i

theorem loseBelow_append (t k : ℕ) (l l' : List (TcpTxItem α)) (c : Counter) :
    loseBelow t (l ++ l') k c =
      ((loseBelow t l k c).1 ++
          (loseBelow t l' (loseBelow t l k c).2.1 (loseBelow t l k c).2.2).1,
        (loseBelow t l' (loseBelow t l k c).2.1 (loseBelow t l k c).2.2).2) := by
  induction l generalizing k c with
  | nil => rfl
  | cons item rest ih =>
    simp only [List.cons_append, loseBelow, ih]

theorem loseBelow_reverse (t : ℕ) (items : List (TcpTxItem α)) (c : Counter) :
    (loseBelow t items.reverse 0 c).1.reverse = markDue t items ∧
      (loseBelow t items.reverse 0 c).2.1 = items.countP (·.sacked) := by
  induction items with
  | nil => exact ⟨rfl, rfl⟩
  | cons item rest ih =>
    obtain ⟨hlist, hcount⟩ := ih
    rw [List.reverse_cons, loseBelow_append, List.reverse_append, hlist, hcount, markDue,
      List.countP_cons]
    generalize (loseBelow t rest.reverse 0 c).2.2 = c'
    simp only [loseBelow, List.reverse_cons, List.reverse_nil, List.nil_append,
      List.singleton_append, List.cons.injEq, and_true]
    constructor
    · obtain ⟨node, startSeq, packet, lost, retrans, sacked⟩ := item
      by_cases ht : t ≤ rest.countP (·.sacked)
      · cases sacked <;> cases lost <;> simp [ht]
      · cases sacked <;> simp [ht]
    · split_ifs <;> rfl

/-- The list after `UpdateLostCount` from the item at place `m` on: the first item is not looked
at, but counted for. -/
def lostFrom (t m : ℕ) : List (TcpTxItem α) → List (TcpTxItem α)
  | [] => []
  | head :: rest =>
    (if t ≤ (rest.take m).countP (·.sacked) then { head with lost := true } else head) ::
      (markDue t (rest.take m) ++ rest.drop m)

def markPlace (b : TcpTxBuffer α) : ℕ :=
  match b.sentList.tail.findIdx? fun item => some item.node = b.highestSack.1 with
  | some i => i + 1
  | none => 0

theorem updateLostCount_sentList (b : TcpTxBuffer α) :
    b.updateLostCount.sentList = lostFrom b.dupAckThresh b.markPlace b.sentList := by
  cases hl : b.sentList with
  | nil => rw [updateLostCount, hl, hl, lostFrom]
  | cons head rest =>
    have hscan : ∀ n, (if b.dupAckThresh ≤
          (loseBelow b.dupAckThresh (rest.take n).reverse 0 b.lostOut).2.1 ∧ ¬head.lost = true
        then { head with lost := true } else head) ::
          ((loseBelow b.dupAckThresh (rest.take n).reverse 0 b.lostOut).1.reverse ++
            rest.drop n) = lostFrom b.dupAckThresh n (head :: rest) := by
      intro n
      obtain ⟨hlist, hcount⟩ := loseBelow_reverse b.dupAckThresh (rest.take n) b.lostOut
      rw [hlist, hcount, lostFrom]
      congr 1
      obtain ⟨node, startSeq, packet, lost, retrans, sacked⟩ := head
      cases lost <;> simp
    rw [updateLostCount, markPlace, hl, List.tail_cons]
    cases hfind : rest.findIdx? fun item => some item.node = b.highestSack.1 with
    | none =>
      simp only [hfind]
      exact hscan 0
    | some i =>
      simp only [hfind]
      exact hscan (i + 1)

theorem updateLostCount_highestSack (b : TcpTxBuffer α) :
    b.updateLostCount.highestSack = b.highestSack := by
  rw [updateLostCount]
  cases b.sentList <;> rfl

end Lost
end NetGymSim.Internet.TcpTxBuffer

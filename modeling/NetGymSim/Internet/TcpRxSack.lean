import NetGymSim.Internet.TcpRxRuns
import Mathlib.Data.List.Find

/-!
# The SACK blocks of the receiver

`UpdateSackList` compares only the ends of blocks, so it does the same to blocks at stream
positions as to their sequence numbers. When the new block overlaps none of the others, what it
touches is merged into it and the list keeps its blocks separate.
-/

namespace NetGymSim.Internet.TcpRxBuffer
open Lib Network
variable {base : ℕ} {begin : ℕ × ℕ} {blocks : List (ℕ × ℕ)}

def Separate (b c : ℕ × ℕ) : Prop := b.2 < c.1 ∨ c.2 < b.1

instance (b c : ℕ × ℕ) : Decidable (Separate b c) := inferInstanceAs (Decidable (_ ∨ _))

def Clear (b c : ℕ × ℕ) : Prop := b.2 ≤ c.1 ∨ c.2 ≤ b.1

instance (b c : ℕ × ℕ) : Decidable (Clear b c) := inferInstanceAs (Decidable (_ ∨ _))

def Proper (b : ℕ × ℕ) : Prop := b.1 < b.2

/-! ### Merging -/

theorem mergedBlock_isSome {b c : ℕ × ℕ} :
    (mergedBlock b c).isSome ↔ b.1 = c.2 ∨ b.2 = c.1 := by
  unfold mergedBlock
  split_ifs with h1 h2
  · simp [h1]
  · simp [h2]
  · simp [h1, h2]

theorem mergedBlock_union {b c m : ℕ × ℕ} (hb : Proper b) (hc : Proper c)
    (hm : mergedBlock b c = some m) :
    Proper m ∧ m.1 ≤ b.1 ∧ b.2 ≤ m.2 ∧
      (∀ p, m.1 ≤ p → p < m.2 → b.1 ≤ p ∧ p < b.2 ∨ c.1 ≤ p ∧ p < c.2) ∧
      ∀ d, Proper d → Clear b d → Separate c d → Clear m d := by
  unfold Proper at *
  unfold mergedBlock at hm
  split_ifs at hm with h1 h2
  · cases hm
    refine ⟨by dsimp only; omega, by dsimp only; omega, Nat.le_refl _, fun p h3 h4 => ?_,
      fun d hd h3 h4 => ?_⟩
    · dsimp only at h3 h4
      omega
    · unfold Clear Separate at *
      dsimp only
      omega
  · cases hm
    refine ⟨by dsimp only; omega, Nat.le_refl _, by dsimp only; omega, fun p h3 h4 => ?_,
      fun d hd h3 h4 => ?_⟩
    · dsimp only at h3 h4
      omega
    · unfold Clear Separate at *
      dsimp only
      omega

structure Merged (begin : ℕ × ℕ) (blocks r : List (ℕ × ℕ)) (first : ℕ × ℕ) (rest : List (ℕ × ℕ)) :
    Prop where
  eq : r = first :: rest
  proper : Proper first
  holds : first.1 ≤ begin.1 ∧ begin.2 ≤ first.2
  covers : ∀ p, first.1 ≤ p → p < first.2 →
    begin.1 ≤ p ∧ p < begin.2 ∨ ∃ c ∈ blocks, c.1 ≤ p ∧ p < c.2
  sublist : rest.Sublist blocks
  separate : ∀ c ∈ rest, Separate first c

theorem Merged.alone (hb : Proper begin) (hc : ∀ c ∈ blocks, Clear begin c)
    (hnone : ∀ c ∈ blocks, ¬ (mergedBlock begin c).isSome) :
    Merged begin blocks (begin :: blocks) begin blocks := by
  refine ⟨rfl, hb, ⟨Nat.le_refl _, Nat.le_refl _⟩, fun p h1 h2 => .inl ⟨h1, h2⟩,
    List.Sublist.refl _, fun c hm => ?_⟩
  have h1 := hc c hm
  have h2 := hnone c hm
  rw [mergedBlock_isSome] at h2
  unfold Clear at h1
  unfold Separate
  omega

theorem mergeSackBlocks_spec (fuel : ℕ) (hfuel : blocks.length ≤ fuel) (hb : Proper begin)
    (hp : ∀ c ∈ blocks, Proper c) (hs : blocks.Pairwise Separate)
    (hc : ∀ c ∈ blocks, Clear begin c) :
    ∃ first rest, Merged begin blocks (mergeSackBlocks fuel begin blocks) first rest := by
  induction fuel generalizing begin blocks with
  | zero =>
    have hnil : blocks = [] := List.eq_nil_of_length_eq_zero (Nat.le_zero.mp hfuel)
    subst hnil
    exact ⟨begin, [], .alone hb hc nofun⟩
  | succ fuel ih =>
    rw [mergeSackBlocks]
    cases hfind : blocks.find? fun c => (mergedBlock begin c).isSome with
    | none =>
      exact ⟨begin, blocks, .alone hb hc fun c hm => List.find?_eq_none.mp hfind c hm⟩
    | some c =>
      have hmem := List.mem_of_find?_eq_some hfind
      have hsome : (mergedBlock begin c).isSome := by simpa using List.find?_some hfind
      obtain ⟨m, hm⟩ := Option.isSome_iff_exists.mp hsome
      obtain ⟨m1, m2, m3, m4, m5⟩ := mergedBlock_union hb (hp c hmem) hm
      obtain ⟨hcc, before, behind, hsplit, hnone⟩ := List.find?_eq_some_iff_append.mp hfind
      have herase : blocks.eraseP (fun c => (mergedBlock begin c).isSome) = before ++ behind := by
        rw [hsplit, List.eraseP_append_right _ (by simpa using hnone),
          List.eraseP_cons_of_pos (p := fun c => (mergedBlock begin c).isSome) hcc]
      have hsub : (before ++ behind).Sublist blocks := by
        rw [hsplit]
        exact (List.sublist_cons_self c behind).append_left before
      have hnext : ∀ d ∈ before ++ behind, Clear m d := by
        intro d hd
        apply m5 d (hp d (hsub.subset hd)) (hc d (hsub.subset hd))
        rw [hsplit] at hs
        have hperm := List.perm_middle.pairwise_iff (fun h => h.symm) |>.mp hs
        exact (List.pairwise_cons.mp hperm).1 d hd
      have hlen : blocks.length = (before ++ behind).length + 1 := by
        rw [hsplit]
        simp only [List.length_append, List.length_cons]
        omega
      simp only [hm, Option.getD_some, herase]
      obtain ⟨first, rest, h⟩ := ih (by omega) m1 (fun d hd => hp d (hsub.subset hd))
        (hs.sublist hsub) hnext
      refine ⟨first, rest, h.eq, h.proper, ⟨h.holds.1.trans m2, m3.trans h.holds.2⟩,
        fun p h1 h2 => ?_, h.sublist.trans hsub, h.separate⟩
      rcases h.covers p h1 h2 with hin | ⟨d, hd, hin⟩
      · rcases m4 p hin.1 hin.2 with hin | hin
        · exact .inl hin
        · exact .inr ⟨c, hmem, hin⟩
      · exact .inr ⟨d, hsub.subset hd, hin⟩

/-! ### At stream positions -/

def numberedBlock (b : ℕ × ℕ) : ℕ × ℕ := (seqAt b.1, seqAt b.2)

def Within (base : ℕ) (b : ℕ × ℕ) : Prop :=
  (base ≤ b.1 ∧ b.1 < base + 2147483648) ∧ base ≤ b.2 ∧ b.2 < base + 2147483648

theorem mergedBlock_numbered {b c : ℕ × ℕ} (hb : Within base b) (hc : Within base c) :
    mergedBlock (numberedBlock b) (numberedBlock c) = (mergedBlock b c).map numberedBlock := by
  obtain ⟨⟨b1, b2⟩, b3, b4⟩ := hb
  obtain ⟨⟨c1, c2⟩, c3, c4⟩ := hc
  have hleft : seqAt b.1 = seqAt c.2 ↔ b.1 = c.2 := seqAt_inj (near_within b1 b2 c3 c4)
  have hright : seqAt b.2 = seqAt c.1 ↔ b.2 = c.1 := seqAt_inj (near_within b3 b4 c1 c2)
  simp only [mergedBlock, numberedBlock, hleft, hright]
  split_ifs <;> rfl

theorem Within.merged {b c m : ℕ × ℕ} (hb : Within base b) (hc : Within base c)
    (hm : mergedBlock b c = some m) : Within base m := by
  unfold mergedBlock at hm
  split_ifs at hm
  · cases hm
    exact ⟨hc.1, hb.2⟩
  · cases hm
    exact ⟨hb.1, hc.2⟩

theorem eraseP_congr {α : Type*} {p q : α → Bool} {l : List α} (h : ∀ x ∈ l, p x = q x) :
    l.eraseP p = l.eraseP q := by
  induction l with
  | nil => rfl
  | cons x l ih =>
    rw [List.eraseP_cons, List.eraseP_cons, h x List.mem_cons_self,
      ih fun y hy => h y (List.mem_cons_of_mem x hy)]

theorem mergeSackBlocks_numbered (fuel : ℕ) (hb : Within base begin)
    (hc : ∀ c ∈ blocks, Within base c) :
    mergeSackBlocks fuel (numberedBlock begin) (numberedBlocks blocks) =
      numberedBlocks (mergeSackBlocks fuel begin blocks) := by
  induction fuel generalizing begin blocks with
  | zero => rfl
  | succ fuel ih =>
    have hsame : ∀ c ∈ blocks, (mergedBlock (numberedBlock begin) (numberedBlock c)).isSome =
        (mergedBlock begin c).isSome := by
      intro c hm
      rw [mergedBlock_numbered hb (hc c hm), Option.isSome_map]
    have hfind : (numberedBlocks blocks).find? (fun c =>
        (mergedBlock (numberedBlock begin) c).isSome) =
        (blocks.find? fun c => (mergedBlock begin c).isSome).map numberedBlock := by
      rw [numberedBlocks, List.find?_map]
      exact congrArg _ (List.find?_congr hsame)
    have herase : (numberedBlocks blocks).eraseP (fun c =>
        (mergedBlock (numberedBlock begin) c).isSome) =
        numberedBlocks (blocks.eraseP fun c => (mergedBlock begin c).isSome) := by
      rw [numberedBlocks, List.eraseP_map]
      exact congrArg _ (eraseP_congr hsame)
    rw [mergeSackBlocks, mergeSackBlocks, hfind, herase]
    cases hfound : blocks.find? fun c => (mergedBlock begin c).isSome with
    | none => rfl
    | some c =>
      have hmem := List.mem_of_find?_eq_some hfound
      have hsome : (mergedBlock begin c).isSome := by simpa using List.find?_some hfound
      obtain ⟨m, hm⟩ := Option.isSome_iff_exists.mp hsome
      simp only [Option.map_some, mergedBlock_numbered hb (hc c hmem), hm, Option.getD_some]
      apply ih (hb.merged (hc c hmem) hm)
      intro d hd
      exact hc d (List.eraseP_sublist.subset hd)

theorem updateSackList_numbered {head tail : ℕ} (hb : Within base (head, tail))
    (hc : ∀ c ∈ blocks, Within base c) :
    updateSackList (numberedBlocks blocks) (seqAt head) (seqAt tail) =
      numberedBlocks (updateSackList blocks head tail) := by
  have hmerge := mergeSackBlocks_numbered blocks.length hb hc
  have hlen : (numberedBlocks blocks).length = blocks.length := List.length_map _
  have hpair : (seqAt head, seqAt tail) = numberedBlock (head, tail) := rfl
  unfold updateSackList
  dsimp only
  rw [hlen, hpair, hmerge]
  have hlen' : ∀ l, (numberedBlocks l).length = l.length := fun l => List.length_map _
  rw [hlen']
  split_ifs
  · rw [numberedBlocks, numberedBlocks, List.map_dropLast]
  · rfl

theorem updateSackList_spec {head tail : ℕ} (hb : head < tail) (hp : ∀ c ∈ blocks, Proper c)
    (hs : blocks.Pairwise Separate) (hc : ∀ c ∈ blocks, Clear (head, tail) c) :
    ∃ first rest, updateSackList blocks head tail = first :: rest ∧ Proper first ∧
      (first.1 ≤ head ∧ tail ≤ first.2) ∧ rest.Sublist blocks ∧
      (first :: rest).Pairwise Separate ∧ (blocks.length ≤ 4 → (first :: rest).length ≤ 4) ∧
      ∀ p, first.1 ≤ p → p < first.2 → head ≤ p ∧ p < tail ∨ ∃ c ∈ blocks, c.1 ≤ p ∧ p < c.2 := by
  have hb' : Proper (head, tail) := hb
  obtain ⟨first, rest, h⟩ := mergeSackBlocks_spec blocks.length (Nat.le_refl _) hb' hp hs hc
  have hpair : (first :: rest).Pairwise Separate :=
    List.pairwise_cons.mpr ⟨h.separate, hs.sublist h.sublist⟩
  have hle := h.sublist.length_le
  unfold updateSackList
  dsimp only
  rw [h.eq]
  split_ifs with hlen
  · rw [List.length_cons] at hlen
    have hne : rest ≠ [] := List.ne_nil_of_length_pos (by omega)
    rw [List.dropLast_cons_of_ne_nil hne]
    have hsub : rest.dropLast.Sublist rest := List.dropLast_sublist rest
    refine ⟨first, rest.dropLast, rfl, h.proper, h.holds, hsub.trans h.sublist,
      hpair.sublist (hsub.cons_cons first), fun hfour => ?_, h.covers⟩
    rw [List.length_cons, List.length_dropLast]
    omega
  · exact ⟨first, rest, rfl, h.proper, h.holds, h.sublist, hpair, fun _ => Nat.le_of_not_lt hlen,
      h.covers⟩

end NetGymSim.Internet.TcpRxBuffer

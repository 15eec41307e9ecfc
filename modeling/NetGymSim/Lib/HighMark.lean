import Mathlib.Data.Finset.Insert
import Mathlib.Data.Finset.Lattice.Basic
import Mathlib.Data.Finset.Max
import Mathlib.Order.Bounds.Basic
import Mathlib.Tactic.Common

/-!
# A mark that should stay with the highest member

Members come in one by one, each at most once. The mark goes to a new member unless it is more
than one above it, so it also steps down to the neighbour of the highest member. `start` says
which members take the mark from where it was at first.
-/

namespace NetGymSim.Lib

structure HighMark where
  members : Finset ℕ
  mark : Option ℕ

namespace HighMark
variable (start : ℕ → Prop) [DecidablePred start]

def moved (i : ℕ) : Option ℕ → Option ℕ
  | none => if start i then some i else none
  | some m => if m ≤ i + 1 then some i else some m

def take (s : HighMark) (i : ℕ) : HighMark :=
  if i ∈ s.members then s else ⟨insert i s.members, moved start i s.mark⟩

def takeAll (s : HighMark) (is : List ℕ) : HighMark := is.foldl (take start) s

variable {start} {s : HighMark} {is xs ys : List ℕ} {h i m : ℕ}

theorem take_of_mem (hi : i ∈ s.members) : take start s i = s := if_pos hi

theorem take_of_notMem (hi : i ∉ s.members) :
    take start s i = ⟨insert i s.members, moved start i s.mark⟩ := if_neg hi

theorem members_take (s : HighMark) (i : ℕ) :
    (take start s i).members = insert i s.members := by
  by_cases hi : i ∈ s.members
  · rw [take_of_mem hi, Finset.insert_eq_of_mem hi]
  · rw [take_of_notMem hi]

theorem takeAll_append (s : HighMark) (xs ys : List ℕ) :
    takeAll start s (xs ++ ys) = takeAll start (takeAll start s xs) ys := List.foldl_append

theorem takeAll_cons (s : HighMark) (i : ℕ) (is : List ℕ) :
    takeAll start s (i :: is) = takeAll start (take start s i) is := rfl

theorem mem_takeAll : i ∈ (takeAll start s is).members ↔ i ∈ s.members ∨ i ∈ is := by
  induction is generalizing s with
  | nil => simp [takeAll]
  | cons j rest ih =>
    rw [takeAll_cons, ih, members_take, Finset.mem_insert, List.mem_cons]
    tauto

theorem takeAll_of_subset (h : ∀ i ∈ is, i ∈ s.members) : takeAll start s is = s := by
  induction is with
  | nil => rfl
  | cons i rest ih =>
    rw [takeAll_cons, take_of_mem (h i List.mem_cons_self)]
    exact ih fun j hj => h j (List.mem_cons_of_mem i hj)

theorem mark_takeAll_none (hs : s.mark = none)
    (hnew : ∀ i ∈ is, i ∉ s.members → ¬start i) : (takeAll start s is).mark = none := by
  induction is generalizing s with
  | nil => exact hs
  | cons i rest ih =>
    rw [takeAll_cons]
    by_cases hi : i ∈ s.members
    · rw [take_of_mem hi]
      exact ih hs fun j hj => hnew j (List.mem_cons_of_mem i hj)
    · rw [take_of_notMem hi]
      apply ih
      · simp only [hs, moved, if_neg (hnew i List.mem_cons_self hi)]
      · intro j hj hout
        apply hnew j (List.mem_cons_of_mem i hj)
        exact fun hmem => hout (Finset.mem_insert_of_mem hmem)

theorem mark_takeAll_below (hs : s.mark = some m) (hm : m < h)
    (hnew : ∀ i ∈ is, i ∉ s.members → i < h) : ∃ j < h, (takeAll start s is).mark = some j := by
  induction is generalizing s m with
  | nil => exact ⟨m, hm, hs⟩
  | cons i rest ih =>
    rw [takeAll_cons]
    by_cases hi : i ∈ s.members
    · rw [take_of_mem hi]
      exact ih hs hm fun j hj => hnew j (List.mem_cons_of_mem i hj)
    · rw [take_of_notMem hi]
      have hlt := hnew i List.mem_cons_self hi
      have hrest : ∀ j ∈ rest, j ∉ insert i s.members → j < h := by
        intro j hj hout
        apply hnew j (List.mem_cons_of_mem i hj)
        exact fun hmem => hout (Finset.mem_insert_of_mem hmem)
      by_cases hle : m ≤ i + 1
      · exact ih (m := i) (by simp only [hs, moved, if_pos hle]) hlt hrest
      · exact ih (m := m) (by simp only [hs, moved, if_neg hle]) hm hrest

/-- While the members that come in are below, the mark leaves `h` for its neighbour only. -/
theorem mark_takeAll_of_top (hs : s.mark = some h) (hnew : ∀ i ∈ is, i ∉ s.members → i < h) :
    (takeAll start s is).mark = some h ↔ ∀ i ∈ is, i ∉ s.members → i + 1 ≠ h := by
  induction is generalizing s with
  | nil => exact iff_of_true hs nofun
  | cons i rest ih =>
    rw [takeAll_cons]
    by_cases hi : i ∈ s.members
    · rw [take_of_mem hi, ih hs fun j hj => hnew j (List.mem_cons_of_mem i hj),
        List.forall_mem_cons]
      exact (and_iff_right fun hout => absurd hi hout).symm
    · have hlt := hnew i List.mem_cons_self hi
      have hrest : ∀ j ∈ rest, j ∉ insert i s.members → j < h := by
        intro j hj hout
        apply hnew j (List.mem_cons_of_mem i hj)
        exact fun hmem => hout (Finset.mem_insert_of_mem hmem)
      rw [take_of_notMem hi]
      by_cases hnext : i + 1 = h
      · have hleft : (⟨insert i s.members, moved start i s.mark⟩ : HighMark).mark = some i := by
          simp only [hs, moved, if_pos hnext.ge]
        obtain ⟨j, hj, heq⟩ := @mark_takeAll_below start _ _ _ _ _ hleft hlt hrest
        apply iff_of_false
        · rw [heq]
          intro h'
          cases h'
          omega
        · exact fun hall => hall i List.mem_cons_self hi hnext
      · have hstay : (⟨insert i s.members, moved start i s.mark⟩ : HighMark).mark = some h := by
          simp only [hs, moved, if_neg (show ¬h ≤ i + 1 by omega)]
        rw [ih hstay hrest, List.forall_mem_cons]
        constructor
        · intro hall
          refine ⟨fun _ => hnext, fun j hj hout => ?_⟩
          by_cases hji : j = i
          · rw [hji]
            exact hnext
          · apply hall j hj
            rw [Finset.mem_insert]
            exact fun hmem => hmem.elim hji hout
        · intro hall j hj hout
          apply hall.2 j hj
          exact fun hmem => hout (Finset.mem_insert_of_mem hmem)

theorem mark_takeAll_le (hs : ∀ m ∈ s.mark, m ≤ h + 1) (hnew : ∀ i ∈ is, i ∉ s.members → i ≤ h) :
    ∀ m ∈ (takeAll start s is).mark, m ≤ h + 1 := by
  induction is generalizing s with
  | nil => exact hs
  | cons i rest ih =>
    rw [takeAll_cons]
    by_cases hi : i ∈ s.members
    · rw [take_of_mem hi]
      exact ih hs fun j hj => hnew j (List.mem_cons_of_mem i hj)
    · rw [take_of_notMem hi]
      have hle := hnew i List.mem_cons_self hi
      apply ih
      · intro m hm
        cases hmark : s.mark with
        | none =>
          simp only [hmark, moved] at hm
          split_ifs at hm
          · cases hm
            omega
          · cases hm
        | some m' =>
          have := hs m' hmark
          simp only [hmark, moved] at hm
          split_ifs at hm <;> cases hm <;> omega
      · intro j hj hout
        apply hnew j (List.mem_cons_of_mem i hj)
        exact fun hmem => hout (Finset.mem_insert_of_mem hmem)

theorem mark_takeAll_ne_none (hs : s.mark ≠ none) (is : List ℕ) :
    (takeAll start s is).mark ≠ none := by
  induction is generalizing s with
  | nil => exact hs
  | cons i rest ih =>
    rw [takeAll_cons]
    apply ih
    by_cases hi : i ∈ s.members
    · rwa [take_of_mem hi]
    · rw [take_of_notMem hi]
      obtain ⟨m, hm⟩ := Option.ne_none_iff_exists'.mp hs
      simp only [hm, moved]
      split_ifs <;> exact Option.some_ne_none _

theorem mark_takeAll_of_start (hi : i ∈ is) (hmem : i ∉ s.members) (hstart : start i) :
    (takeAll start s is).mark ≠ none := by
  obtain ⟨xs, ys, rfl, hxs⟩ := List.eq_append_cons_of_mem hi
  have hout : i ∉ (takeAll start s xs).members := fun hin => (mem_takeAll.mp hin).elim hmem hxs
  rw [takeAll_append, takeAll_cons, take_of_notMem hout]
  apply mark_takeAll_ne_none
  cases hm : (takeAll start s xs).mark with
  | none =>
    simp only [moved, if_pos hstart]
    exact Option.some_ne_none i
  | some m =>
    simp only [moved]
    split_ifs <;> exact Option.some_ne_none _

/-- When the highest of the new members comes in the mark goes there, and it stays unless the
neighbour below comes in afterwards. -/
theorem mark_takeAll_split (hs : ∀ m ∈ s.mark, m ≤ h + 1) (hstart : s.mark = none → start h)
    (hmem : h ∉ s.members) (hxs : h ∉ xs)
    (hnew : ∀ i ∈ xs ++ h :: ys, i ∉ s.members → i ≤ h) :
    (takeAll start s (xs ++ h :: ys)).mark = some h ↔
      ∀ i ∈ ys, i ∉ s.members → i ∉ xs → i + 1 ≠ h := by
  have hbefore : ∀ i ∈ xs, i ∉ s.members → i ≤ h := fun i hi =>
    hnew i (List.mem_append_left _ hi)
  have hle : ∀ m ∈ (takeAll start s xs).mark, m ≤ h + 1 := mark_takeAll_le hs hbefore
  have hout : h ∉ (takeAll start s xs).members := fun hin => (mem_takeAll.mp hin).elim hmem hxs
  have htop : (take start (takeAll start s xs) h).mark = some h := by
    rw [take_of_notMem hout]
    cases hmark : (takeAll start s xs).mark with
    | none =>
      have hnone : s.mark = none := by
        by_contra hne
        exact mark_takeAll_ne_none hne xs hmark
      simp only [moved, if_pos (hstart hnone)]
    | some m => simp only [moved, if_pos (hle m hmark)]
  have hmembers : ∀ i, i ∉ (take start (takeAll start s xs) h).members ↔
      i ∉ s.members ∧ i ∉ xs ∧ i ≠ h := by
    intro i
    rw [members_take, Finset.mem_insert, mem_takeAll]
    tauto
  rw [takeAll_append, takeAll_cons, mark_takeAll_of_top htop]
  · apply forall₂_congr
    intro i _
    rw [hmembers]
    constructor
    · intro hall h1 h2 h3
      exact hall ⟨h1, h2, by omega⟩ h3
    · exact fun hall hi => hall hi.1 hi.2.1
  · intro i hi hnot
    obtain ⟨h1, -, h3⟩ := (hmembers i).mp hnot
    have := hnew i (List.mem_append_right _ (List.mem_cons_of_mem h hi)) h1
    omega

def Right (s : HighMark) : Prop :=
  (∀ h ∈ s.mark, IsGreatest (s.members : Set ℕ) h) ∧ (s.mark = none → s.members = ∅)

/-- A member comes in right below one that is there already, and nothing is above the two. -/
def Slides (members : Finset ℕ) (is : List ℕ) : Prop :=
  ∃ xs i ys, is = xs ++ i :: ys ∧ i ∉ members ∧ i ∉ xs ∧ (i + 1 ∈ members ∨ i + 1 ∈ xs) ∧
    ∀ j, j ∈ members ∨ j ∈ is → j ≤ i + 1

theorem Right.eq_some_iff (hs : Right s) (hg : IsGreatest (s.members : Set ℕ) h) :
    s.mark = some h := by
  cases hm : s.mark with
  | none =>
    have hempty := hs.2 hm
    exact absurd hg.1 (by simp [hempty])
  | some m => rw [(hs.1 m hm).unique hg]

theorem right_iff (hg : IsGreatest (s.members : Set ℕ) h) : Right s ↔ s.mark = some h := by
  refine ⟨fun hs => hs.eq_some_iff hg, fun hm => ⟨fun m hm' => ?_, fun hnone => ?_⟩⟩
  · rw [hm] at hm'
    cases hm'
    exact hg
  · rw [hm] at hnone
    cases hnone

theorem slides_of_first {members : Finset ℕ} (xs : List ℕ) (heq : is = xs ++ ys) (hi : i ∈ ys)
    (hout : i ∉ members) (hxs : i ∉ xs) (hone : i + 1 ∈ members ∨ i + 1 ∈ xs)
    (htop : ∀ j, j ∈ members ∨ j ∈ is → j ≤ i + 1) : Slides members is := by
  obtain ⟨a, c, rfl, ha⟩ := List.eq_append_cons_of_mem hi
  refine ⟨xs ++ a, i, c, by rw [heq, List.append_assoc], hout, ?_, ?_, htop⟩
  · rw [List.mem_append]
    exact fun hmem => hmem.elim hxs ha
  · exact hone.imp_right fun hmem => List.mem_append_left a hmem

/-- The mark of a run that starts right ends right unless the run slides. -/
theorem right_takeAll_iff (hs : Right s) (hstart : s.mark = none → ∀ i, start i) (is : List ℕ) :
    Right (takeAll start s is) ↔ ¬Slides s.members is := by
  by_cases hempty : (takeAll start s is).members = ∅
  · have hno : ∀ i, ¬(i ∈ s.members ∨ i ∈ is) := by
      intro i hi
      rw [← @mem_takeAll start, hempty] at hi
      exact absurd hi (Finset.notMem_empty i)
    rw [takeAll_of_subset fun i hi => absurd (.inr hi) (hno i)]
    refine iff_of_true hs fun hslides => ?_
    obtain ⟨xs, i, ys, rfl, -⟩ := hslides
    exact hno i (.inr (by simp))
  obtain ⟨h, hg⟩ : ∃ h, IsGreatest ((takeAll start s is).members : Set ℕ) h :=
    ⟨_, Finset.isGreatest_max' _ (Finset.nonempty_iff_ne_empty.mpr hempty)⟩
  have htop : ∀ j, j ∈ s.members ∨ j ∈ is → j ≤ h := fun j hj => hg.2 (mem_takeAll.mpr hj)
  have hin : h ∈ s.members ∨ h ∈ is := mem_takeAll.mp hg.1
  rw [right_iff hg]
  by_cases hold : h ∈ s.members
  · have hmark : s.mark = some h := hs.eq_some_iff ⟨hold, fun j hj => htop j (.inl hj)⟩
    rw [mark_takeAll_of_top hmark, ← not_iff_not, not_not]
    · constructor
      · intro hnot
        push Not at hnot
        obtain ⟨i, hi, hout, rfl⟩ := hnot
        exact slides_of_first [] rfl hi hout List.not_mem_nil (.inl hold) htop
      · intro hslides hall
        obtain ⟨xs, i, ys, rfl, hout, -, hone, habove⟩ := hslides
        apply hall i (by simp) hout
        apply le_antisymm
        · apply htop
          exact hone.imp_right fun hmem => List.mem_append_left _ hmem
        · exact habove h hin
    · intro i hi hout
      apply lt_of_le_of_ne (htop i (.inr hi))
      exact fun heq => hout (heq ▸ hold)
  · obtain ⟨xs, ys, rfl, hxs⟩ := List.eq_append_cons_of_mem (hin.resolve_left hold)
    have hmarks : ∀ m ∈ s.mark, m ≤ h + 1 := fun m hm =>
      (htop m (.inl (hs.1 m hm).1)).trans (Nat.le_succ h)
    rw [mark_takeAll_split hmarks (fun hn => hstart hn h) hold hxs fun i hi _ => htop i (.inr hi),
      ← not_iff_not, not_not]
    constructor
    · intro hnot
      push Not at hnot
      obtain ⟨i, hi, hout, hbefore, rfl⟩ := hnot
      apply slides_of_first (xs ++ [i + 1]) (by simp) hi hout _ (.inr (by simp)) htop
      simp [hbefore]
    · intro hslides hall
      obtain ⟨xs', i, ys', heq, hout, hbefore, hone, habove⟩ := hslides
      have htwo : i + 1 = h := by
        apply le_antisymm
        · apply htop
          rw [heq]
          exact hone.imp_right fun hmem => List.mem_append_left _ hmem
        · exact habove h hin
      have hlater : h ∈ xs' := by
        rw [htwo] at hone
        exact hone.resolve_left hold
      rcases List.append_eq_append_iff.mp heq with ⟨a, rfl, ha⟩ | ⟨c, rfl, -⟩
      · have hi : i ∈ ys := by
          have hmem : i ∈ h :: ys := by
            rw [ha]
            simp
          exact (List.mem_cons.mp hmem).resolve_left (by omega)
        exact hall i hi hout (fun hmem => hbefore (List.mem_append_left a hmem)) htwo
      · exact hxs (List.mem_append_left c hlater)

end HighMark
end NetGymSim.Lib

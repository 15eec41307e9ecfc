import Mathlib.Data.List.Sort
import Mathlib.Tactic.Common

/-!
# `std::list::sort` and `std::list::unique`

The sort is stable. `unique` drops an element equal to the one before it, so that a sorted
list is left without duplicates.
-/

namespace NetGymSim.Lib
variable {α : Type*} [DecidableEq α]

def unique : List α → List α
  | [] => []
  | [a] => [a]
  | a :: b :: rest => if a = b then unique (b :: rest) else a :: unique (b :: rest)

theorem mem_unique {a : α} {l : List α} : a ∈ unique l ↔ a ∈ l := by
  fun_induction unique l with
  | case1 => rfl
  | case2 => rfl
  | case3 a rest ih => rw [ih]; simp
  | case4 a b rest hne ih => rw [List.mem_cons, ih, ← List.mem_cons]

theorem unique_sublist (l : List α) : (unique l).Sublist l := by
  fun_induction unique l with
  | case1 => exact .slnil
  | case2 => exact .refl _
  | case3 a rest ih => exact ih.cons a
  | case4 a b rest hne ih => exact ih.cons_cons a

theorem unique_nodup {r : α → α → Prop} (hanti : ∀ a b, r a b → r b a → a = b) {l : List α}
    (h : l.Pairwise r) : (unique l).Nodup := by
  fun_induction unique l with
  | case1 => exact List.nodup_nil
  | case2 => exact List.nodup_singleton _
  | case3 a rest ih => exact ih h.of_cons
  | case4 a b rest hne ih =>
    refine List.nodup_cons.mpr ⟨fun hm => ?_, ih h.of_cons⟩
    -- an equal element further on would lie on both sides of its neighbour
    obtain ⟨ha, hb⟩ := List.pairwise_cons.mp h
    rcases List.mem_cons.mp (mem_unique.mp hm) with rfl | hm
    · exact hne rfl
    · exact hne (hanti a b (ha b List.mem_cons_self) ((List.pairwise_cons.mp hb).1 a hm))

end NetGymSim.Lib

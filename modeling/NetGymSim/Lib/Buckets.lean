import Mathlib.Data.List.Basic
import Mathlib.Data.List.Sort
import Mathlib.Data.Nat.ModEq
import Mathlib.Data.List.Perm.Basic
import Mathlib.Tactic.Common

/-!
# Families of lists and modular slots

What a family of lists holds is the list of all their elements; replacing one member
replaces its share. Slots that fall into one of `n` buckets by their residue and are
not before a base slot lie at a known offset from it, or at least a whole round later.
-/

namespace NetGymSim.Lib
variable {ι α : Type*}

theorem flatMap_update_perm [DecidableEq ι] {keys : List ι} (hn : keys.Nodup) {k : ι}
    (hk : k ∈ keys) (f : ι → List α) :
    ∃ rest, (keys.flatMap f).Perm (f k ++ rest) ∧
      ∀ l, (keys.flatMap (Function.update f k l)).Perm (l ++ rest) := by
  obtain ⟨s, t, rfl⟩ := List.append_of_mem hk
  have hs : k ∉ s := fun h => (List.nodup_append.mp hn).2.2 k h k (by simp) rfl
  have ht : k ∉ t := (List.nodup_cons.mp (List.nodup_append.mp hn).2.1).1
  have front : ∀ a b c : List α, (a ++ (b ++ c)).Perm (b ++ (a ++ c)) := fun a b c => by
    rw [← List.append_assoc, ← List.append_assoc]
    exact List.perm_append_comm.append_right c
  refine ⟨s.flatMap f ++ t.flatMap f, ?_, fun l => ?_⟩
  · rw [List.flatMap_append, List.flatMap_cons]
    exact front _ _ _
  · have e1 : s.flatMap (Function.update f k l) = s.flatMap f :=
      List.flatMap_congr fun d hd => Function.update_of_ne (by rintro rfl; exact hs hd) _ _
    have e2 : t.flatMap (Function.update f k l) = t.flatMap f :=
      List.flatMap_congr fun d hd => Function.update_of_ne (by rintro rfl; exact ht hd) _ _
    rw [List.flatMap_append, List.flatMap_cons, e1, e2, Function.update_self]
    exact front _ _ _

theorem pairwise_orderedInsert {r : α → α → Prop} [DecidableRel r]
    (trans : ∀ a b c, r a b → r b c → r a c) {a : α} {l : List α} (hl : l.Pairwise r)
    (ha : ∀ b ∈ l, ¬ r a b → r b a) : (l.orderedInsert r a).Pairwise r := by
  induction l with
  | nil => simp
  | cons b l ih =>
    obtain ⟨hb, hl⟩ := List.pairwise_cons.mp hl
    rw [List.orderedInsert_cons]
    split_ifs with h
    · refine List.pairwise_cons.mpr ⟨fun c hc => ?_, List.pairwise_cons.mpr ⟨hb, hl⟩⟩
      rcases List.mem_cons.mp hc with rfl | hc
      · exact h
      · exact trans _ _ _ h (hb c hc)
    · refine List.pairwise_cons.mpr ⟨fun c hc => ?_, ih hl fun c hc => ha c (by simp [hc])⟩
      rcases (List.mem_orderedInsert r).mp hc with rfl | hc
      · exact ha b (by simp) h
      · exact hb c hc

theorem slot_offset {a b j n : ℕ} (hb : b ≤ a) (hj : j < n) (h : a % n = (b + j) % n) :
    a = b + j ∨ b + j + n ≤ a := by
  obtain ⟨d, rfl⟩ := Nat.exists_eq_add_of_le hb
  have hd : d % n = j := by
    have h' : Nat.ModEq n d j := Nat.ModEq.add_left_cancel' b h
    rw [h', Nat.mod_eq_of_lt hj]
  have hq := Nat.div_add_mod d n
  rw [hd] at hq
  rcases Nat.eq_zero_or_pos (d / n) with h0 | h0
  · rw [h0] at hq
    exact .inl (by omega)
  · have := Nat.mul_le_mul_left n h0
    exact .inr (by omega)

end NetGymSim.Lib

import NetGymSim.Internet.Ipv4Cutting

/-!
# Putting fragments together

The list of a collection is sorted by offset and holds slices of the original payload.
`reach` is the end of what the scans have covered: without a gap the joined packet is the
payload up to there. A missing fragment leaves a gap in front of the next one that is not
missing.
-/

namespace NetGymSim.Internet.Ipv4L3Protocol
open Lib
variable {α : Type*} {k : ℕ × ℕ} {off n : ℕ} {more : Bool}

namespace Fragments
variable {l before after : List (List α × ℕ)} {e : List α × ℕ} {D : List α}

def reach (l : List (List α × ℕ)) (n : ℕ) : ℕ :=
  l.foldl (fun m e => max m (e.1.length + e.2)) n

/-- Fragments with the bytes that the payload `D` has at their offsets. -/
def Slices (D : List α) (l : List (List α × ℕ)) : Prop :=
  ∀ e ∈ l, e.2 + e.1.length ≤ D.length ∧ e.1 = (D.drop e.2).take e.1.length

section Scan

@[simp] theorem reach_nil : reach ([] : List (List α × ℕ)) n = n := rfl

@[simp] theorem reach_cons : reach (e :: l) n = reach l (max n (e.1.length + e.2)) := rfl

theorem le_reach (l : List (List α × ℕ)) (n : ℕ) : n ≤ reach l n := by
  induction l generalizing n with
  | nil => exact le_refl n
  | cons e rest ih => exact le_trans (Nat.le_max_left _ _) (ih _)

theorem end_le_reach (hm : e ∈ l) (n : ℕ) : e.1.length + e.2 ≤ reach l n := by
  induction l generalizing n with
  | nil => cases hm
  | cons x rest ih =>
    rcases List.mem_cons.mp hm with rfl | hm
    · exact le_trans (Nat.le_max_right n _) (le_reach rest _)
    · exact ih hm _

theorem reach_le {m : ℕ} (hn : n ≤ m) (h : ∀ e ∈ l, e.1.length + e.2 ≤ m) : reach l n ≤ m := by
  induction l generalizing n with
  | nil => exact hn
  | cons e rest ih =>
    apply ih
    · exact Nat.max_le.mpr ⟨hn, h e List.mem_cons_self⟩
    · exact fun x hx => h x (List.mem_cons_of_mem e hx)

theorem noGap_iff (hs : ∀ e ∈ l, e.1.length + e.2 < 65536) :
    noGap l n = true ↔ ∀ before e after, l = before ++ e :: after → e.2 ≤ reach before n := by
  induction l generalizing n with
  | nil =>
    refine ⟨fun _ before e after h => ?_, fun _ => rfl⟩
    simp at h
  | cons x rest ih =>
    have hx : (x.1.length + x.2) % 65536 = x.1.length + x.2 :=
      Nat.mod_eq_of_lt (hs x List.mem_cons_self)
    have hrest := ih (n := max n (x.1.length + x.2)) fun e he => hs e (List.mem_cons_of_mem x he)
    simp only [noGap, hx]
    split_ifs with hgap
    · refine ⟨fun h => absurd h (by simp), fun h => ?_⟩
      have := h [] x rest rfl
      rw [reach_nil] at this
      omega
    · rw [hrest]
      constructor
      · intro h before e after heq
        cases before with
        | nil =>
          obtain ⟨rfl, -⟩ := List.cons.inj heq
          exact Nat.le_of_not_lt hgap
        | cons y before =>
          obtain ⟨rfl, hrest⟩ := List.cons.inj heq
          exact h before e after hrest
      · intro h before e after heq
        exact h (x :: before) e after (by rw [heq]; rfl)

theorem Slices.small (h : Slices D l) (hD : D.length < 65536) (hm : e ∈ l) :
    e.1.length + e.2 < 65536 := by
  have := (h e hm).1
  omega

theorem joinLoop_spec (h : Slices D l) (hD : D.length < 65536) (hn : n ≤ D.length)
    (hg : noGap l n = true) : joinLoop l (D.take n) = D.take (reach l n) := by
  induction l generalizing n with
  | nil => rfl
  | cons e rest ih =>
    obtain ⟨hend, heq⟩ := h e List.mem_cons_self
    have hrest : Slices D rest := fun x hx => h x (List.mem_cons_of_mem e hx)
    have hx : (e.1.length + e.2) % 65536 = e.1.length + e.2 := Nat.mod_eq_of_lt (by omega)
    have hlen : (D.take n).length % 65536 = n := by
      rw [List.length_take]
      omega
    simp only [noGap, hx] at hg
    split_ifs at hg with hgap
    simp only [joinLoop, hlen, reach_cons]
    have hjoin : n ≤ e.1.length + e.2 →
        D.take n ++ e.1.drop (n - e.2) = D.take (e.1.length + e.2) := by
      intro hle
      rw [heq, List.length_take, List.length_drop, Nat.min_eq_left (by omega), List.drop_take,
        List.drop_drop, show e.2 + (n - e.2) = n by omega]
      calc D.take n ++ (D.drop n).take (e.1.length - (n - e.2))
          = D.take (n + (e.1.length - (n - e.2))) := (List.take_add ..).symm
        _ = D.take (e.1.length + e.2) := by congr 1; omega
    split_ifs with hover hnew
    · rw [Nat.max_eq_right (by omega)] at hg ⊢
      rw [hjoin (by omega)]
      exact ih hrest (by omega) hg
    · rw [Nat.max_eq_left (by omega)] at hg ⊢
      exact ih hrest hn hg
    · have hat : n - e.2 = 0 := by omega
      have := hjoin (by omega)
      rw [hat, List.drop_zero] at this
      rw [Nat.max_eq_right (by omega)] at hg ⊢
      rw [this]
      exact ih hrest (by omega) hg

theorem getPacket_spec {f : Fragments α} (h : Slices D f.fragments) (hD : D.length < 65536)
    (hne : f.fragments ≠ []) (hg : noGap f.fragments 0 = true) :
    f.getPacket = D.take (reach f.fragments 0) := by
  cases hl : f.fragments with
  | nil => exact absurd hl hne
  | cons e rest =>
    rw [hl] at h hg
    obtain ⟨hend, heq⟩ := h e List.mem_cons_self
    have hx : (e.1.length + e.2) % 65536 = e.1.length + e.2 := Nat.mod_eq_of_lt (by omega)
    simp only [noGap, hx] at hg
    split_ifs at hg with hgap
    have h0 : e.2 = 0 := by omega
    rw [h0, Nat.add_zero, Nat.zero_max] at hg
    simp only [getPacket, hl, reach_cons, h0, Nat.add_zero, Nat.zero_max]
    rw [h0, List.drop_zero] at heq
    rw [← joinLoop_spec (fun x hx => h x (List.mem_cons_of_mem e hx)) hD (by omega) hg, ← heq]

end Scan

section Insertion

theorem mem_addFragment {f : Fragments α} {fragment : List α} {x : List α × ℕ} :
    x ∈ (f.addFragment fragment off more).fragments ↔ x ∈ f.fragments ∨ x = (fragment, off) := by
  have hsplit := List.takeWhile_append_dropWhile (p := fun e : List α × ℕ => e.2 ≤ off)
    (l := f.fragments)
  have hmem : x ∈ f.fragments ↔ x ∈ f.fragments.takeWhile (fun e => e.2 ≤ off) ∨
      x ∈ f.fragments.dropWhile (fun e => e.2 ≤ off) := by
    conv_lhs => rw [← hsplit]
    exact List.mem_append
  simp only [addFragment, List.mem_append, List.mem_cons, hmem]
  tauto

theorem sorted_insert (h : l.Pairwise fun a b => a.2 ≤ b.2) :
    (l.takeWhile (fun x => x.2 ≤ e.2) ++ e :: l.dropWhile fun x => x.2 ≤ e.2).Pairwise
      fun a b => a.2 ≤ b.2 := by
  induction l with
  | nil => simp
  | cons x rest ih =>
    obtain ⟨h1, h2⟩ := List.pairwise_cons.mp h
    by_cases hx : x.2 ≤ e.2
    · rw [List.takeWhile_cons_of_pos (by simpa using hx),
        List.dropWhile_cons_of_pos (by simpa using hx), List.cons_append, List.pairwise_cons]
      refine ⟨fun y hy => ?_, ih h2⟩
      rcases List.mem_append.mp hy with hy | hy
      · exact h1 y (List.takeWhile_subset _ hy)
      · rcases List.mem_cons.mp hy with rfl | hy
        · exact hx
        · exact h1 y (List.dropWhile_subset _ hy)
    · rw [List.takeWhile_cons_of_neg (by simpa using hx),
        List.dropWhile_cons_of_neg (by simpa using hx), List.nil_append, List.pairwise_cons]
      refine ⟨fun y hy => ?_, h⟩
      rcases List.mem_cons.mp hy with rfl | hy
      · omega
      · have := h1 y hy
        omega

end Insertion
end Fragments
end NetGymSim.Internet.Ipv4L3Protocol

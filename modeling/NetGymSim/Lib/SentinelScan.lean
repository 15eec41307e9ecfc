import Mathlib.Data.List.Basic

/-!
# Minimum scans with a sentinel

A scan keeps the best value seen and takes the next one when it is better, or
when nothing has been taken yet. "Nothing yet" is a value `none` of the same type.
If the least value of the list is another one, the scan finds it. If it is the
sentinel itself, the scan ends at it exactly when the list ends with it.
-/

namespace NetGymSim.Lib.SentinelScan
variable {α : Type*} [DecidableEq α] (none : α) (before : α → α → Prop) [DecidableRel before]

def pick (best x : α) : α := if best = none ∨ before x best then x else best

def scan (xs : List α) (best : α) : α := xs.foldl (pick none before) best

structure Least (xs : List α) (m : α) : Prop where
  mem : m ∈ xs
  first : ∀ x ∈ xs, x ≠ m → before m x ∧ ¬ before x m

variable {none before}

omit [DecidableEq α] [DecidableRel before] in
theorem Least.unique {xs : List α} {m n : α} (hm : Least before xs m) (hn : Least before xs n) :
    m = n := by
  by_contra h
  exact (hn.first m hm.mem h).2 (hm.first n hn.mem (Ne.symm h)).1

theorem pick_mem {xs : List α} {best x : α} (hb : best = none ∨ best ∈ xs) (hx : x ∈ xs) :
    pick none before best x ∈ xs := by
  by_cases h : best = none ∨ before x best
  · rw [pick, if_pos h]
    exact hx
  · rw [pick, if_neg h]
    exact hb.resolve_left fun e => h (.inl e)

theorem scan_mem {xs ys : List α} (hsub : ∀ y ∈ ys, y ∈ xs) {best : α}
    (hb : best = none ∨ best ∈ xs) : scan none before ys best = none ∨
      scan none before ys best ∈ xs := by
  induction ys generalizing best with
  | nil => exact hb
  | cons y ys ih =>
    apply ih (fun z hz => hsub z (List.mem_cons_of_mem y hz))
    exact .inr (pick_mem hb (hsub y (List.mem_cons_self)))

theorem scan_keeps {ys : List α} {m : α} (hne : m ≠ none)
    (hlater : ∀ y ∈ ys, y ≠ m → ¬ before y m) : scan none before ys m = m := by
  induction ys with
  | nil => rfl
  | cons y ys ih =>
    have hpick : pick none before m y = m := by
      by_cases hy : y = m
      · rw [hy, pick, ite_self]
      · exact if_neg (not_or.mpr ⟨hne, hlater y List.mem_cons_self hy⟩)
    have htail := ih fun z hz => hlater z (List.mem_cons_of_mem y hz)
    calc scan none before (y :: ys) m = scan none before ys (pick none before m y) := rfl
      _ = m := by rw [hpick, htail]

theorem scan_least {xs ys : List α} {m best : α} (h : Least before xs m) (hne : m ≠ none)
    (hsub : ∀ y ∈ ys, y ∈ xs) (hm : m ∈ ys) (hb : best = none ∨ best ∈ xs) :
    scan none before ys best = m := by
  induction ys generalizing best with
  | nil => cases hm
  | cons y ys ih =>
    have hsub' : ∀ z ∈ ys, z ∈ xs := fun z hz => hsub z (List.mem_cons_of_mem y hz)
    show scan none before ys (pick none before best y) = m
    by_cases hy : y = m
    · subst hy
      have hpick : pick none before best y = y := by
        by_cases hby : best = y
        · rw [hby, pick, ite_self]
        · rcases hb with hb | hb
          · exact if_pos (.inl hb)
          · exact if_pos (.inr (h.first best hb hby).1)
      rw [hpick]
      exact scan_keeps hne fun z hz hzm => (h.first z (hsub' z hz) hzm).2
    · have hmem : m ∈ ys := (List.mem_cons.mp hm).resolve_left (Ne.symm hy)
      exact ih hsub' hmem (.inr (pick_mem hb (hsub y List.mem_cons_self)))

theorem scan_sentinel {xs : List α} (h : Least before xs none) :
    scan none before xs none = none ↔ xs.getLast? = some none := by
  have hstep : ∀ best x, best = none ∨ best ∈ xs → x ∈ xs →
      (pick none before best x = none ↔ x = none) := by
    intro best x hb hx
    constructor
    · intro hp
      by_cases hc : best = none ∨ before x best
      · rwa [pick, if_pos hc] at hp
      · rw [pick, if_neg hc] at hp
        exact absurd (.inl hp) hc
    · rintro rfl
      by_cases hbn : best = x
      · rw [hbn, pick, ite_self]
      · exact if_pos (.inr (h.first best (hb.resolve_left hbn) hbn).1)
  cases hx : xs.reverse with
  | nil =>
    have hnil : xs = [] := List.reverse_eq_nil_iff.mp hx
    rw [hnil] at h
    cases h.mem
  | cons last front =>
    have hxs : xs = front.reverse ++ [last] := by
      rw [← List.reverse_reverse xs, hx, List.reverse_cons]
    have hsub : ∀ y ∈ front.reverse, y ∈ xs := fun y hy => by
      rw [hxs]
      exact List.mem_append_left _ hy
    have hfront : scan none before front.reverse none = none ∨
        scan none before front.reverse none ∈ xs := scan_mem hsub (.inl rfl)
    have hlast := hstep _ last hfront (by rw [hxs]; simp)
    have hscan : scan none before xs none =
        pick none before (scan none before front.reverse none) last := by
      conv_lhs => rw [hxs]
      exact List.foldl_append
    rw [hscan, hlast, hxs, List.getLast?_append]
    simp

end NetGymSim.Lib.SentinelScan

import Mathlib.Data.List.Basic
import Mathlib.Tactic.Common

/-!
# Stretches of a list

A stretch is the part of a list from a place on; `splice` writes over one. Accesses that leave the
list fail, unless they move nothing.
-/

namespace NetGymSim.Lib
variable {α : Type*} {l new : List α} {a b k m n : ℕ}

def stretch (l : List α) (a n : ℕ) : List α := (l.drop a).take n

def splice (l : List α) (a : ℕ) (new : List α) : List α :=
  l.take a ++ new ++ l.drop (a + new.length)

def readAt (l : List α) (a n : ℕ) : Option (List α) :=
  if n = 0 ∨ a + n ≤ l.length then some (stretch l a n) else none

def writeAt (l : List α) (a : ℕ) (new : List α) : Option (List α) :=
  if new = [] then some l
  else if a + new.length ≤ l.length then some (splice l a new) else none

@[simp] theorem stretch_zero (l : List α) (a : ℕ) : stretch l a 0 = [] := List.take_zero

@[simp] theorem splice_nil (l : List α) (a : ℕ) : splice l a [] = l := by
  simp [splice]

theorem stretch_length (h : a + n ≤ l.length) : (stretch l a n).length = n := by
  rw [stretch, List.length_take, List.length_drop]
  omega

theorem splice_length (h : a + new.length ≤ l.length) : (splice l a new).length = l.length := by
  simp only [splice, List.length_append, List.length_take, List.length_drop]
  omega

theorem stretch_getElem? (l : List α) (a n k : ℕ) :
    (stretch l a n)[k]? = if k < n then l[a + k]? else none := by
  rw [stretch, List.getElem?_take, List.getElem?_drop]

theorem splice_getElem? (h : a + new.length ≤ l.length) (k : ℕ) :
    (splice l a new)[k]? =
      if a ≤ k ∧ k < a + new.length then new[k - a]? else l[k]? := by
  have ha : (l.take a).length = a := List.length_take_of_le (by omega)
  by_cases hlow : k < a
  · rw [if_neg (by omega), splice, List.append_assoc, List.getElem?_append_left (by omega),
      List.getElem?_take_of_lt hlow]
  · by_cases hin : k < a + new.length
    · rw [if_pos ⟨by omega, hin⟩, splice, List.append_assoc,
        List.getElem?_append_right (by omega), ha, List.getElem?_append_left (by omega)]
    · rw [if_neg (by omega), splice, List.getElem?_append_right (by simp [ha]; omega),
        List.getElem?_drop, List.length_append, ha]
      congr 1
      omega

theorem stretch_add (l : List α) (a m n : ℕ) :
    stretch l a (m + n) = stretch l a m ++ stretch l (a + m) n := by
  rw [stretch, List.take_add, List.drop_drop]
  rfl

theorem stretch_splice_self (h : a + new.length ≤ l.length) :
    stretch (splice l a new) a new.length = new := by
  apply List.ext_getElem?
  intro k
  rw [stretch_getElem?, splice_getElem? h]
  by_cases hk : k < new.length
  · rw [if_pos hk, if_pos (by omega), Nat.add_sub_cancel_left]
  · rw [if_neg hk, List.getElem?_eq_none (Nat.le_of_not_lt hk)]

theorem stretch_splice_outside (h : a + new.length ≤ l.length)
    (hout : b + n ≤ a ∨ a + new.length ≤ b) : stretch (splice l a new) b n = stretch l b n := by
  apply List.ext_getElem?
  intro k
  rw [stretch_getElem?, stretch_getElem?]
  by_cases hk : k < n
  · rw [if_pos hk, if_pos hk, splice_getElem? h, if_neg (by omega)]
  · rw [if_neg hk, if_neg hk]

theorem splice_append (front back : List α) {old : List α} (h : old.length = new.length) :
    splice (front ++ old ++ back) front.length new = front ++ new ++ back := by
  have hlength : front.length + new.length = (front ++ old).length := by
    rw [List.length_append, h]
  rw [splice, hlength, List.drop_left, List.append_assoc front old back, List.take_left]

theorem drop_splice (h : a + new.length ≤ l.length) :
    (splice l a new).drop (a + new.length) = l.drop (a + new.length) := by
  have ha : (l.take a ++ new).length = a + new.length := by
    rw [List.length_append, List.length_take_of_le (by omega)]
  rw [splice, ← ha, List.drop_left]

theorem splice_splice {more : List α} (h : a + (new ++ more).length ≤ l.length) :
    splice (splice l a new) (a + new.length) more = splice l a (new ++ more) := by
  rw [List.length_append] at h
  have hnew : a + new.length ≤ l.length := by omega
  apply List.ext_getElem?
  intro k
  rw [splice_getElem? (by rw [splice_length hnew]; omega), splice_getElem? hnew,
    splice_getElem? (by rw [List.length_append]; omega), List.length_append]
  by_cases hmore : a + new.length ≤ k ∧ k < a + new.length + more.length
  · rw [if_pos hmore, if_pos (by omega), List.getElem?_append_right (by omega)]
    congr 1
    omega
  · by_cases hk : a ≤ k ∧ k < a + new.length
    · rw [if_neg hmore, if_pos hk, if_pos (by omega), List.getElem?_append_left (by omega)]
    · rw [if_neg hmore, if_neg hk, if_neg (by omega)]

theorem stretch_splice_inside (h : b + new.length ≤ n) (hl : a + n ≤ l.length) :
    stretch (splice l (a + b) new) a n = splice (stretch l a n) b new := by
  have hlength := stretch_length hl
  apply List.ext_getElem?
  intro k
  rw [splice_getElem? (by omega), stretch_getElem?, stretch_getElem?,
    splice_getElem? (by omega)]
  by_cases hk : k < n
  · rw [if_pos hk, if_pos hk]
    by_cases hin : b ≤ k ∧ k < b + new.length
    · rw [if_pos (by omega), if_pos hin]
      congr 1
      omega
    · rw [if_neg (by omega), if_neg hin]
  · rw [if_neg hk, if_neg (by omega), if_neg hk]

/-- What is written `m` places too far reads well at the right place only by accident: the first
`m` elements were there, and the others repeat them. -/
theorem stretch_splice_shifted (h : a + m + new.length ≤ l.length) :
    stretch (splice l (a + m) new) a new.length = new ↔
      ∀ k < new.length, new[k]? = if k < m then l[a + k]? else new[k - m]? := by
  have hread : ∀ k < new.length, (stretch (splice l (a + m) new) a new.length)[k]? =
      if k < m then l[a + k]? else new[k - m]? := by
    intro k hk
    rw [stretch_getElem?, if_pos hk, splice_getElem? h]
    by_cases hm : k < m
    · rw [if_neg (by omega), if_pos hm]
    · rw [if_pos (by omega), if_neg hm]
      congr 1
      omega
  constructor
  · intro heq k hk
    rw [← hread k hk, heq]
  · intro hnew
    apply List.ext_getElem?
    intro k
    by_cases hk : k < new.length
    · rw [hread k hk, hnew k hk]
    · rw [stretch_getElem?, if_neg hk, List.getElem?_eq_none (Nat.le_of_not_lt hk)]

theorem readAt_eq (h : a + n ≤ l.length) : readAt l a n = some (stretch l a n) :=
  if_pos (.inr h)

theorem writeAt_eq (h : a + new.length ≤ l.length) : writeAt l a new = some (splice l a new) := by
  unfold writeAt
  by_cases hnil : new = []
  · rw [if_pos hnil, hnil, splice_nil]
  · rw [if_neg hnil, if_pos h]

theorem writeAt_eq_none (hnil : new ≠ []) (h : ¬a + new.length ≤ l.length) :
    writeAt l a new = none := by
  rw [writeAt, if_neg hnil, if_neg h]

theorem writeAt_length {l' : List α} (h : writeAt l a new = some l') : l'.length = l.length := by
  unfold writeAt at h
  split_ifs at h with hnil hroom
  · rw [Option.some.inj h]
  · rw [← Option.some.inj h, splice_length hroom]

end NetGymSim.Lib

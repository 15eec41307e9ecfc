import Mathlib.Data.List.Basic
import Mathlib.Data.List.Perm.Basic
import Mathlib.Order.Defs.LinearOrder
import Mathlib.Algebra.Order.Ring.Nat

/-!
# Maps as lists in the order of their keys

A `std::map` that is iterated over is the list of its entries. `push` is the idiom that appends
to the vector under a key and creates the vector when the key is new.
-/

namespace NetGymSim.Lib.OrderedMap
variable {κ β : Type*}

section Lookup
variable [DecidableEq κ]

def find (m : List (κ × β)) (k : κ) : Option β := (m.find? fun entry => entry.1 = k).map (·.2)

def modify (m : List (κ × β)) (k : κ) (f : β → β) : List (κ × β) :=
  m.map fun entry => if entry.1 = k then (entry.1, f entry.2) else entry

def erase (m : List (κ × β)) (k : κ) : List (κ × β) := m.filter fun entry => entry.1 ≠ k

theorem find_cons (entry : κ × β) (m : List (κ × β)) (k : κ) :
    find (entry :: m) k = if entry.1 = k then some entry.2 else find m k := by
  unfold find
  rw [List.find?_cons]
  by_cases hk : entry.1 = k
  · simp [hk]
  · simp [hk]

theorem find_eq_none {m : List (κ × β)} {k : κ} (h : ∀ entry ∈ m, entry.1 ≠ k) :
    find m k = none := by
  unfold find
  rw [Option.map_eq_none_iff, List.find?_eq_none]
  intro entry hentry
  simpa using h entry hentry

theorem find_append (m m' : List (κ × β)) (k : κ) :
    find (m ++ m') k = (find m k).or (find m' k) := by
  induction m with
  | nil => rfl
  | cons entry rest ih =>
    rw [List.cons_append, find_cons, find_cons]
    by_cases hk : entry.1 = k
    · rw [if_pos hk, if_pos hk, Option.some_or]
    · rw [if_neg hk, if_neg hk, ih]

theorem find_of_mem_keys {m : List (κ × β)} {k : κ} (h : k ∈ m.map Prod.fst) :
    ∃ v, find m k = some v := by
  induction m with
  | nil => cases h
  | cons entry rest ih =>
    rw [find_cons]
    by_cases hk : entry.1 = k
    · exact ⟨entry.2, if_pos hk⟩
    · rw [if_neg hk]
      cases List.mem_cons.mp h with
      | inl heq => exact absurd heq.symm hk
      | inr hmem => exact ih hmem

theorem mem_of_find {m : List (κ × β)} {k : κ} {v : β} (h : find m k = some v) : (k, v) ∈ m := by
  obtain ⟨entry, hfind, hv⟩ := Option.map_eq_some_iff.mp h
  have hk : entry.1 = k := by simpa using List.find?_some hfind
  rw [← hk, ← hv]
  exact List.mem_of_find?_eq_some hfind

theorem map_modify {γ : Type*} (m : List (κ × β)) (k : κ) {f : β → β} {g : κ × β → γ}
    (hg : ∀ v, g (k, f v) = g (k, v)) : (modify m k f).map g = m.map g := by
  rw [modify, List.map_map]
  apply List.map_congr_left
  rintro ⟨k', v⟩ _
  by_cases hk : k' = k
  · subst hk
    simp [hg]
  · simp [hk]

theorem find_map {γ : Type*} (g : β → γ) (m : List (κ × β)) (k : κ) :
    find (m.map fun entry => (entry.1, g entry.2)) k = (find m k).map g := by
  induction m with
  | nil => rfl
  | cons entry rest ih =>
    unfold find at ih ⊢
    rw [List.map_cons, List.find?_cons, List.find?_cons]
    by_cases hk : entry.1 = k
    · simp [hk]
    · simp only [hk, decide_false]
      exact ih

theorem find_modify (m : List (κ × β)) (k k' : κ) (f : β → β) :
    find (modify m k f) k' = if k = k' then (find m k').map f else find m k' := by
  induction m with
  | nil => simp [modify, find]
  | cons entry rest ih =>
    unfold modify at ih ⊢
    rw [List.map_cons, find_cons, find_cons, ih]
    by_cases hentry : entry.1 = k
    · by_cases hk : k = k'
      · simp [hentry, hk]
      · simp [hentry, hk]
    · by_cases hk : k = k'
      · simp only [if_neg hentry, if_pos hk]
        rw [if_neg (hk ▸ hentry), if_neg (hk ▸ hentry)]
      · simp only [if_neg hentry, if_neg hk]

end Lookup

section Insert
variable [DecidableEq κ] (lt : κ → κ → Prop) [DecidableRel lt]

/-- The value under a key is replaced, or inserted where its place is. -/
def upsert (k : κ) (f : Option β → β) : List (κ × β) → List (κ × β)
  | [] => [(k, f none)]
  | (k', v) :: rest =>
      if lt k k' then (k, f none) :: (k', v) :: rest
      else if k = k' then (k, f (some v)) :: rest
      else (k', v) :: upsert k f rest

def push {α : Type*} (k : κ) (a : α) (m : List (κ × List α)) : List (κ × List α) :=
  upsert lt k (fun old => old.getD [] ++ [a]) m

variable {lt}

theorem mem_upsert {k k' : κ} {f : Option β → β} {v : β} {m : List (κ × β)}
    (h : (k', v) ∈ upsert lt k f m) :
    (k', v) ∈ m ∨ k' = k ∧ (v = f none ∨ ∃ v₀, (k, v₀) ∈ m ∧ v = f (some v₀)) := by
  induction m with
  | nil =>
    cases List.mem_singleton.mp h
    exact .inr ⟨rfl, .inl rfl⟩
  | cons entry rest ih =>
    obtain ⟨k₁, v₁⟩ := entry
    unfold upsert at h
    by_cases hlt : lt k k₁
    · rw [if_pos hlt] at h
      cases List.mem_cons.mp h with
      | inl heq =>
        cases heq
        exact .inr ⟨rfl, .inl rfl⟩
      | inr hmem => exact .inl hmem
    · rw [if_neg hlt] at h
      by_cases heq : k = k₁
      · rw [if_pos heq] at h
        cases List.mem_cons.mp h with
        | inl hnew =>
          cases hnew
          exact .inr ⟨rfl, .inr ⟨v₁, heq ▸ List.mem_cons_self, rfl⟩⟩
        | inr hmem => exact .inl (List.mem_cons_of_mem _ hmem)
      · rw [if_neg heq] at h
        cases List.mem_cons.mp h with
        | inl hnew => exact .inl (hnew ▸ List.mem_cons_self)
        | inr hmem =>
          cases ih hmem with
          | inl hold => exact .inl (List.mem_cons_of_mem _ hold)
          | inr hnew =>
            obtain ⟨hk, hv⟩ := hnew
            refine .inr ⟨hk, hv.imp id ?_⟩
            rintro ⟨v₀, hv₀, hf⟩
            exact ⟨v₀, List.mem_cons_of_mem _ hv₀, hf⟩

theorem flatMap_filter_push {α : Type*} (p : κ → Bool) (k : κ) (a : α)
    (m : List (κ × List α)) :
    (((push lt k a m).filter fun entry => p entry.1).flatMap Prod.snd).Perm
      (if p k then a :: (m.filter fun entry => p entry.1).flatMap Prod.snd
        else (m.filter fun entry => p entry.1).flatMap Prod.snd) := by
  unfold push
  induction m with
  | nil =>
    by_cases hk : p k = true
    · simp [upsert, hk]
    · simp [upsert, hk]
  | cons entry rest ih =>
    obtain ⟨k₁, v₁⟩ := entry
    unfold upsert
    by_cases hlt : lt k k₁
    · rw [if_pos hlt, List.filter_cons]
      by_cases hk : p k = true
      · rw [if_pos hk, if_pos hk]
        exact .refl _
      · rw [if_neg hk, if_neg hk]
    · rw [if_neg hlt]
      by_cases heq : k = k₁
      · subst heq
        rw [if_pos rfl]
        by_cases hk : p k = true
        · simp only [List.filter_cons, hk, if_true, List.flatMap_cons, Option.getD_some,
            List.append_assoc]
          exact List.perm_middle
        · simp [hk]
      · rw [if_neg heq, List.filter_cons, List.filter_cons]
        by_cases hk₁ : p k₁ = true
        · rw [if_pos hk₁, if_pos hk₁, List.flatMap_cons, List.flatMap_cons]
          by_cases hk : p k = true
          · rw [if_pos hk] at ih ⊢
            exact (ih.append_left v₁).trans List.perm_middle
          · rw [if_neg hk] at ih ⊢
            exact ih.append_left v₁
        · rw [if_neg hk₁, if_neg hk₁]
          exact ih

theorem flatMap_upsert {α : Type*} {g : β → List α} {f : Option β → β} {a : α}
    (hnone : g (f none) = [a]) (hsome : ∀ v, (g (f (some v))).Perm (a :: g v)) (k : κ)
    (m : List (κ × β)) :
    ((upsert lt k f m).flatMap fun entry => g entry.2).Perm
      (a :: m.flatMap fun entry => g entry.2) := by
  induction m with
  | nil => simp [upsert, hnone]
  | cons entry rest ih =>
    obtain ⟨k₁, v₁⟩ := entry
    unfold upsert
    by_cases hlt : lt k k₁
    · rw [if_pos hlt, List.flatMap_cons, hnone]
      exact .refl _
    · rw [if_neg hlt]
      by_cases heq : k = k₁
      · rw [if_pos heq, List.flatMap_cons, List.flatMap_cons]
        exact (hsome v₁).append_right _
      · rw [if_neg heq, List.flatMap_cons, List.flatMap_cons]
        exact (ih.append_left (g v₁)).trans List.perm_middle

theorem flatMap_push {α : Type*} (k : κ) (a : α) (m : List (κ × List α)) :
    ((push lt k a m).flatMap Prod.snd).Perm (a :: m.flatMap Prod.snd) := by
  apply flatMap_upsert (g := id)
  · rfl
  · intro v
    exact List.perm_append_singleton a v

theorem mem_push {α : Type*} {k k' : κ} {a x : α} {v : List α} {m : List (κ × List α)}
    (h : (k', v) ∈ push lt k a m) (hx : x ∈ v) :
    k' = k ∧ x = a ∨ ∃ v₀, (k', v₀) ∈ m ∧ x ∈ v₀ := by
  cases mem_upsert h with
  | inl hold => exact .inr ⟨v, hold, hx⟩
  | inr hnew =>
    obtain ⟨rfl, rfl | ⟨v₀, hv₀, rfl⟩⟩ := hnew
    · exact .inl ⟨rfl, by simpa using hx⟩
    · cases List.mem_append.mp hx with
      | inl hold => exact .inr ⟨v₀, hv₀, hold⟩
      | inr heq => exact .inl ⟨rfl, List.mem_singleton.mp heq⟩

end Insert

section Sorted
variable [LinearOrder κ]

def Sorted (m : List (κ × β)) : Prop := (m.map Prod.fst).Pairwise (· < ·)

theorem Sorted.find {m : List (κ × β)} (h : Sorted m) {k : κ} {v : β} (hv : (k, v) ∈ m) :
    find m k = some v := by
  induction m with
  | nil => cases hv
  | cons entry rest ih =>
    obtain ⟨hfirst, hrest⟩ := List.pairwise_cons.mp h
    cases List.mem_cons.mp hv with
    | inl heq =>
      rw [← heq]
      simp [OrderedMap.find]
    | inr hmem =>
      have hlt : entry.1 < k := hfirst k (List.mem_map_of_mem hmem)
      rw [← ih hrest hmem]
      simp [OrderedMap.find, ne_of_lt hlt]

theorem Sorted.upsert {m : List (κ × β)} (h : Sorted m) (k : κ) (f : Option β → β) :
    Sorted (upsert (· < ·) k f m) := by
  induction m with
  | nil => exact List.pairwise_singleton _ _
  | cons entry rest ih =>
    obtain ⟨k₁, v₁⟩ := entry
    obtain ⟨hfirst, hrest⟩ := List.pairwise_cons.mp h
    unfold OrderedMap.upsert
    by_cases hlt : k < k₁
    · rw [if_pos hlt]
      refine List.pairwise_cons.mpr ⟨?_, h⟩
      intro x hx
      cases List.mem_cons.mp hx with
      | inl heq => exact heq ▸ hlt
      | inr hmem => exact lt_trans hlt (hfirst x hmem)
    · rw [if_neg hlt]
      by_cases heq : k = k₁
      · rw [if_pos heq]
        exact heq ▸ h
      · rw [if_neg heq]
        refine List.pairwise_cons.mpr ⟨?_, ih hrest⟩
        intro x hx
        obtain ⟨⟨k', v⟩, hmem, rfl⟩ := List.mem_map.mp hx
        cases mem_upsert hmem with
        | inl hold => exact hfirst k' (List.mem_map_of_mem hold)
        | inr hnew =>
          rw [hnew.1]
          exact lt_of_le_of_ne (not_lt.mp hlt) (Ne.symm heq)

theorem Sorted.find_upsert {m : List (κ × β)} (h : Sorted m) (k : κ) (f : Option β → β) (k' : κ) :
    OrderedMap.find (OrderedMap.upsert (· < ·) k f m) k' =
      if k' = k then some (f (OrderedMap.find m k)) else OrderedMap.find m k' := by
  induction m with
  | nil =>
    rw [OrderedMap.upsert, find_cons]
    exact if_congr eq_comm rfl rfl
  | cons entry rest ih =>
    obtain ⟨k₁, v₁⟩ := entry
    obtain ⟨hfirst, hrest⟩ := List.pairwise_cons.mp h
    unfold OrderedMap.upsert
    by_cases hlt : k < k₁
    · have hnone : OrderedMap.find ((k₁, v₁) :: rest) k = none := by
        apply find_eq_none
        intro entry hentry
        cases List.mem_cons.mp hentry with
        | inl heq => exact heq ▸ (ne_of_lt hlt).symm
        | inr hmem => exact (ne_of_lt (lt_trans hlt (hfirst _ (List.mem_map_of_mem hmem)))).symm
      rw [if_pos hlt, find_cons, hnone]
      exact if_congr eq_comm rfl rfl
    · rw [if_neg hlt]
      by_cases heq : k = k₁
      · subst heq
        rw [if_pos rfl, find_cons, find_cons, find_cons, if_pos rfl]
        by_cases hk : k' = k
        · rw [if_pos hk.symm, if_pos hk]
        · rw [if_neg (Ne.symm hk), if_neg hk, if_neg (Ne.symm hk)]
      · rw [if_neg heq, find_cons, find_cons, find_cons, if_neg (Ne.symm heq), ih hrest]
        by_cases hk : k₁ = k'
        · rw [if_pos hk, if_pos hk, if_neg (hk ▸ Ne.symm heq)]
        · rw [if_neg hk, if_neg hk]

theorem Sorted.erase {m : List (κ × β)} (h : Sorted m) (k : κ) : Sorted (erase m k) :=
  h.sublist (List.filter_sublist.map _)

end Sorted
end NetGymSim.Lib.OrderedMap

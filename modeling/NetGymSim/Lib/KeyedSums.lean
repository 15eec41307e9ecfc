import Mathlib.Algebra.BigOperators.Group.List.Basic
import Mathlib.Data.List.Basic

/-!
# Sums by key in parallel lists

A list of keys beside a list of values holds, under each key that occurs among some items, the sum
of their values. An item with a new key is put behind both lists, and one with a known key is added
to the value beside it.
-/

namespace NetGymSim.Lib
variable {κ β : Type*}

theorem mem_keys_append {items : List (κ × β)} {k k' : κ} {v : β} :
    k' ∈ (items ++ [(k, v)]).map Prod.fst ↔ k' ∈ items.map Prod.fst ∨ k' = k := by
  rw [List.map_append, List.mem_append, List.map_singleton, List.mem_singleton]

variable [DecidableEq κ]

theorem filter_key_eq {f : β → κ} {l : List β} (h : (l.map f).Nodup) {a : β} (ha : a ∈ l) :
    (l.filter fun b => f b = f a) = [a] := by
  induction l with
  | nil => cases ha
  | cons b l ih =>
    obtain ⟨hb, hl⟩ := List.nodup_cons.mp h
    rcases List.mem_cons.mp ha with rfl | ha
    · have hrest : (l.filter fun b => f b = f a) = [] := by
        rw [List.filter_eq_nil_iff]
        intro c hc heq
        exact hb (of_decide_eq_true heq ▸ List.mem_map_of_mem hc)
      rw [List.filter_cons_of_pos (by simp), hrest]
    · have hne : f b ≠ f a := fun heq => hb (heq ▸ List.mem_map_of_mem ha)
      rw [List.filter_cons_of_neg (by simpa using hne), ih hl ha]

def beside (keys : List κ) (values : List β) (k : κ) : List β :=
  ((keys.zip values).filter fun p => p.1 = k).map Prod.snd

theorem beside_cons (k₀ : κ) (v₀ : β) (keys : List κ) (values : List β) (k : κ) :
    beside (k₀ :: keys) (v₀ :: values) k =
      if k₀ = k then v₀ :: beside keys values k else beside keys values k := by
  unfold beside
  by_cases hk : k₀ = k
  · simp [hk]
  · simp [hk]

theorem beside_append {keys : List κ} {values : List β} (h : keys.length = values.length)
    (k₀ : κ) (v₀ : β) (k : κ) :
    beside (keys ++ [k₀]) (values ++ [v₀]) k =
      beside keys values k ++ if k₀ = k then [v₀] else [] := by
  unfold beside
  rw [List.zip_append h, List.filter_append, List.map_append]
  by_cases hk : k₀ = k
  · simp [hk]
  · simp [hk]

theorem beside_eq_nil {keys : List κ} {values : List β} {k : κ} (h : k ∉ keys) :
    beside keys values k = [] := by
  unfold beside
  rw [List.map_eq_nil_iff, List.filter_eq_nil_iff]
  intro p hp heq
  exact h (of_decide_eq_true heq ▸ (List.of_mem_zip hp).1)

def addBeside [Add β] (k : κ) (v : β) (keys : List κ) (values : List β) : List β :=
  List.zipWith (fun k' x => if k' = k then x + v else x) keys values

theorem addBeside_length [Add β] {k : κ} {v : β} {keys : List κ} {values : List β}
    (h : keys.length = values.length) : (addBeside k v keys values).length = values.length := by
  rw [addBeside, List.length_zipWith, h, Nat.min_self]

theorem beside_addBeside [Add β] (k : κ) (v : β) (keys : List κ) (values : List β) (k' : κ) :
    beside keys (addBeside k v keys values) k' =
      if k' = k then (beside keys values k').map (· + v) else beside keys values k' := by
  induction keys generalizing values with
  | nil => simp [beside]
  | cons k₀ keys ih =>
    cases values with
    | nil => simp [beside, addBeside]
    | cons v₀ values =>
      show beside (k₀ :: keys) ((if k₀ = k then v₀ + v else v₀) :: addBeside k v keys values) k' = _
      rw [beside_cons, beside_cons, ih]
      by_cases hk : k' = k
      · subst hk
        by_cases hk₀ : k₀ = k'
        · simp [hk₀]
        · simp [hk₀]
      · by_cases hk₀ : k₀ = k'
        · have hne : k₀ ≠ k := fun heq => hk (hk₀.symm.trans heq)
          simp [hk₀, hk]
        · simp [hk₀, hk]

section Sums
variable [AddMonoid β]

def sumAt (items : List (κ × β)) (k : κ) : β :=
  ((items.filter fun p => p.1 = k).map Prod.snd).sum

theorem sumAt_append (items : List (κ × β)) (k₀ : κ) (v₀ : β) (k : κ) :
    sumAt (items ++ [(k₀, v₀)]) k = if k₀ = k then sumAt items k + v₀ else sumAt items k := by
  unfold sumAt
  rw [List.filter_append, List.map_append, List.sum_append]
  by_cases hk : k₀ = k
  · simp [hk]
  · simp [hk]

/-- The lists hold one value for each key of the items, their sum. -/
structure HoldsSums (keys : List κ) (values : List β) (items : List (κ × β)) : Prop where
  length : keys.length = values.length
  mem : ∀ k, k ∈ keys ↔ k ∈ items.map Prod.fst
  beside : ∀ k, beside keys values k = if k ∈ items.map Prod.fst then [sumAt items k] else []

namespace HoldsSums
variable {keys : List κ} {values : List β} {items : List (κ × β)}

theorem single (k : κ) (v : β) : HoldsSums [k] [v] [(k, v)] where
  length := rfl
  mem k' := by simp
  beside k' := by
    by_cases hk : k = k'
    · simp [Lib.beside, sumAt, hk]
    · simp [Lib.beside, hk, Ne.symm hk]

theorem append (h : HoldsSums keys values items) {k : κ} (hk : k ∉ keys) (v : β) :
    HoldsSums (keys ++ [k]) (values ++ [v]) (items ++ [(k, v)]) where
  length := by simp [h.length]
  mem k' := by
    rw [mem_keys_append, ← h.mem, List.mem_append, List.mem_singleton]
  beside k' := by
    rw [beside_append h.length, sumAt_append]
    by_cases heq : k = k'
    · subst heq
      have hitems : k ∉ items.map Prod.fst := mt (h.mem k).mpr hk
      have hsum : sumAt items k = 0 := by
        unfold sumAt
        rw [List.filter_eq_nil_iff.mpr fun p hp heq => hitems ?_]
        · rfl
        · exact of_decide_eq_true heq ▸ List.mem_map_of_mem hp
      rw [beside_eq_nil hk, hsum, if_pos (mem_keys_append.mpr (.inr rfl)), zero_add]
      simp
    · have hmem : k' ∈ (items ++ [(k, v)]).map Prod.fst ↔ k' ∈ items.map Prod.fst := by
        rw [mem_keys_append, or_iff_left (Ne.symm heq)]
      rw [h.beside k', if_neg heq, if_neg heq, List.append_nil, if_congr hmem rfl rfl]

theorem add (h : HoldsSums keys values items) {k : κ} (hk : k ∈ keys) (v : β) :
    HoldsSums keys (addBeside k v keys values) (items ++ [(k, v)]) where
  length := h.length.trans (addBeside_length h.length).symm
  mem k' := by
    rw [h.mem k', mem_keys_append]
    exact ⟨.inl, fun hmem => hmem.elim id fun hk' => hk' ▸ (h.mem k).mp hk⟩
  beside k' := by
    rw [beside_addBeside, h.beside k', sumAt_append]
    have hitems : k ∈ items.map Prod.fst := (h.mem k).mp hk
    by_cases heq : k' = k
    · subst heq
      rw [if_pos rfl, if_pos rfl, if_pos hitems, if_pos (mem_keys_append.mpr (.inr rfl))]
      rfl
    · have hmem : k' ∈ (items ++ [(k, v)]).map Prod.fst ↔ k' ∈ items.map Prod.fst := by
        rw [mem_keys_append, or_iff_left heq]
      rw [if_neg heq, if_neg (Ne.symm heq), if_congr hmem rfl rfl]

end HoldsSums
end Sums

theorem sum_map_exchange [AddCommMonoid β] {keys : List κ} (hnodup : keys.Nodup) {k : κ}
    (hk : k ∈ keys) {f g : κ → β} (hother : ∀ i, i ≠ k → f i = g i) :
    (keys.map f).sum + g k = (keys.map g).sum + f k := by
  have hrest : (keys.erase k).map f = (keys.erase k).map g := by
    apply List.map_congr_left
    intro i hi
    exact hother i (hnodup.mem_erase_iff.mp hi).1
  rw [← List.sum_map_erase f hk, ← List.sum_map_erase g hk, hrest, add_right_comm,
    add_right_comm (g k), add_comm (g k)]

end NetGymSim.Lib

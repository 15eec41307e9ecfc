import Mathlib.Order.Nat
import Mathlib.Order.Basic
import Mathlib.Tactic.Common
/-!
# Shortest walks by settling the nearest candidate

A weighted directed graph is a relation. Some vertices are settled, some are candidates with
a tentative length, and every edge that leaves a settled vertex leads to one of the two,
except the edges that are still pending. With none pending, the least tentative length is a
distance, and without candidates everything reachable is settled.
-/

namespace NetGymSim.Lib
variable {α : Type*}

inductive Walk (edge : α → α → ℕ → Prop) (root : α) : α → ℕ → Prop
  | nil : Walk edge root root 0
  | snoc {u v : α} {d c : ℕ} : Walk edge root u d → edge u v c → Walk edge root v (d + c)

def IsDist (edge : α → α → ℕ → Prop) (root v : α) (d : ℕ) : Prop :=
  Walk edge root v d ∧ ∀ l, Walk edge root v l → d ≤ l

def Reached (settled candidate : α → ℕ → Prop) (v : α) (l : ℕ) : Prop :=
  ∃ d, (settled v d ∨ candidate v d) ∧ d ≤ l

structure Frontier (edge : α → α → ℕ → Prop) (root : α) (settled candidate : α → ℕ → Prop)
    (pending : α → α → ℕ → Prop) : Prop where
  start : settled root 0
  settled_dist : ∀ (v : α) (d : ℕ), settled v d → IsDist edge root v d
  candidate_walk : ∀ (v : α) (d : ℕ), candidate v d → Walk edge root v d
  relaxed : ∀ (u v : α) (d c : ℕ), settled u d → edge u v c → ¬ pending u v c →
    Reached settled candidate v (d + c)

variable {edge : α → α → ℕ → Prop} {root u v : α} {settled candidate : α → ℕ → Prop}
  {pending : α → α → ℕ → Prop} {d l : ℕ}

theorem IsDist.unique (h : IsDist edge root v d) (h' : IsDist edge root v l) : d = l :=
  Nat.le_antisymm (h.2 _ h'.1) (h'.2 _ h.1)

theorem IsDist.before {c : ℕ} (hw : Walk edge root u d) (he : edge u v c)
    (hv : IsDist edge root v (d + c)) : IsDist edge root u d := by
  refine ⟨hw, fun l hl => ?_⟩
  have := hv.2 _ (hl.snoc he)
  omega

namespace Frontier

/-- A walk to a vertex that is not settled crosses the frontier at a candidate or by a
pending edge, and neither is longer. -/
theorem crosses (h : Frontier edge root settled candidate pending)
    (hw : Walk edge root v l) :
    (∃ d, settled v d ∧ d ≤ l) ∨ (∃ z d, candidate z d ∧ d ≤ l) ∨
      ∃ a b c d, settled a d ∧ edge a b c ∧ pending a b c ∧ d + c ≤ l := by
  induction hw with
  | nil => exact .inl ⟨0, h.start, Nat.le_refl 0⟩
  | @snoc u v k c _ he ih =>
    rcases ih with ⟨d, hd, hle⟩ | ⟨z, d, hz, hle⟩ | ⟨a, b, c', d, ha, hab, hp, hle⟩
    · by_cases hp : pending u v c
      · exact .inr (.inr ⟨u, v, c, d, hd, he, hp, Nat.add_le_add_right hle c⟩)
      · obtain ⟨d', hd' | hd', hle'⟩ := h.relaxed u v d c hd he hp
        · exact .inl ⟨d', hd', hle'.trans (Nat.add_le_add_right hle c)⟩
        · exact .inr (.inl ⟨v, d', hd', hle'.trans (Nat.add_le_add_right hle c)⟩)
    · exact .inr (.inl ⟨z, d, hz, hle.trans (Nat.le_add_right k c)⟩)
    · exact .inr (.inr ⟨a, b, c', d, ha, hab, hp, hle.trans (Nat.le_add_right k c)⟩)

theorem nearer (h : Frontier edge root settled candidate fun _ _ _ => False)
    (hw : Walk edge root v l) (hmin : ∀ z k, candidate z k → l < k) :
    ∃ d, settled v d ∧ d ≤ l := by
  rcases h.crosses hw with hs | ⟨z, d, hz, hle⟩ | ⟨_, _, _, _, _, _, hp, _⟩
  · exact hs
  · have := hmin z d hz
    omega
  · exact hp.elim

theorem nearest (h : Frontier edge root settled candidate fun _ _ _ => False)
    (hv : candidate v d) (hs : ∀ k, ¬ settled v k)
    (hmin : ∀ z k, candidate z k → d ≤ k) : IsDist edge root v d := by
  refine ⟨h.candidate_walk v d hv, fun l hw => ?_⟩
  rcases h.crosses hw with ⟨k, hk, -⟩ | ⟨z, k, hz, hle⟩ | ⟨_, _, _, _, _, _, hp, _⟩
  · exact (hs k hk).elim
  · exact (hmin z k hz).trans hle
  · exact hp.elim

theorem complete (h : Frontier edge root settled candidate fun _ _ _ => False)
    (hc : ∀ z k, ¬ candidate z k) (hw : Walk edge root v l) : ∃ d, settled v d := by
  obtain ⟨d, hd, -⟩ := h.nearer hw fun z k hz => (hc z k hz).elim
  exact ⟨d, hd⟩

end Frontier
end NetGymSim.Lib

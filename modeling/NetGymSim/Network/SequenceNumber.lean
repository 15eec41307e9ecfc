import NetGymSim.Lib.Word

/-!
# Sequence numbers of a byte stream

`SequenceNumber<uint32_t, int32_t>` is the residue of a stream position modulo `2^32`.
The comparisons follow the source on residues. On positions that are less than half
of the space apart they agree with the order of the positions.
-/

namespace NetGymSim.Network
open Lib

def seqAdd (a delta : ℕ) : ℕ := (a + delta) % 4294967296

def seqGt (a b : ℕ) : Prop :=
  (b < a ∧ a - b ≤ 2147483647) ∨ (a < b ∧ 2147483647 < b - a)

instance (a b : ℕ) : Decidable (seqGt a b) := inferInstanceAs (Decidable (_ ∨ _))

def seqLe (a b : ℕ) : Prop := ¬ seqGt a b

instance (a b : ℕ) : Decidable (seqLe a b) := inferInstanceAs (Decidable (¬ _))

def seqGe (a b : ℕ) : Prop := seqGt a b ∨ a = b

instance (a b : ℕ) : Decidable (seqGe a b) := inferInstanceAs (Decidable (_ ∨ _))

def seqLt (a b : ℕ) : Prop := ¬ seqGt a b ∧ a ≠ b

instance (a b : ℕ) : Decidable (seqLt a b) := inferInstanceAs (Decidable (_ ∧ _))

def seqSub (a b : ℕ) : ℤ :=
  if b < a then
    if a - b < 2147483647 then int32 (a - b) else int32 (- int32 (4294967295 - a + 1 + b))
  else
    if b - a < 2147483647 then int32 (- int32 (b - a)) else int32 (4294967295 - b + 1 + a)

def seqAt (p : ℕ) : ℕ := p % 4294967296

def Near (p q : ℕ) : Prop := p < q + 2147483648 ∧ q < p + 2147483648

instance (p q : ℕ) : Decidable (Near p q) := inferInstanceAs (Decidable (_ ∧ _))

theorem Near.symm {p q : ℕ} (h : Near p q) : Near q p := ⟨h.2, h.1⟩

section Positions
variable {p q : ℕ}

theorem seqAdd_at (p n : ℕ) : seqAdd (seqAt p) n = seqAt (p + n) := by
  simp [seqAdd, seqAt]

theorem seqGt_at (h : Near p q) : seqGt (seqAt p) (seqAt q) ↔ q < p := by
  obtain ⟨h1, h2⟩ := h
  simp only [seqGt, seqAt]
  omega

theorem seqAt_inj (h : Near p q) : seqAt p = seqAt q ↔ p = q := by
  obtain ⟨h1, h2⟩ := h
  simp only [seqAt]
  omega

theorem seqLe_at (h : Near p q) : seqLe (seqAt p) (seqAt q) ↔ p ≤ q := by
  simp [seqLe, seqGt_at h]

theorem seqGe_at (h : Near p q) : seqGe (seqAt p) (seqAt q) ↔ q ≤ p := by
  simp only [seqGe, seqGt_at h, seqAt_inj h]
  omega

theorem seqLt_at (h : Near p q) : seqLt (seqAt p) (seqAt q) ↔ p < q := by
  simp only [seqLt, seqGt_at h, ne_eq, seqAt_inj h]
  omega

theorem seqSub_at (h : Near p q) : seqSub (seqAt p) (seqAt q) = (p : ℤ) - q := by
  obtain ⟨h1, h2⟩ := h
  simp only [seqSub, seqAt, int32]
  split_ifs <;> omega

theorem seqSub_word {k : ℕ} (p : ℕ) (hk : k < 4294967296) :
    (seqSub (seqAt (p + k)) (seqAt p) % 4294967296).toNat = k := by
  simp only [seqSub, seqAt, int32]
  split_ifs <;> omega

end Positions
end NetGymSim.Network

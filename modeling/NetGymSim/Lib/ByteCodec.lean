import Mathlib.Data.List.Basic
import Mathlib.Tactic.Common
import Mathlib.Algebra.Order.Ring.Nat

/-!
# Words, flags, optional fields and vectors in a byte stream

A word codec writes a number as a fixed count of bytes and reads it back modulo what these
bytes can hold, leaving the rest of the stream. A field is optional when a flag says whether
it is there. Flags are a list of bits, the lowest first. The first bytes of a vector are
written one by one, and as many are read back.
-/

namespace NetGymSim.Lib

structure WordCodec where
  width : ℕ
  modulus : ℕ
  write : ℕ → List ℕ
  read : List ℕ → Option (ℕ × List ℕ)
  length_write : ∀ v, (write v).length = width
  write_mod : ∀ v, write (v % modulus) = write v
  read_write : ∀ v rest, read (write v ++ rest) = some (v % modulus, rest)

namespace WordCodec

def u8 : WordCodec where
  width := 1
  modulus := 256
  write v := [v % 256]
  read
    | b :: rest => some (b, rest)
    | _ => none
  length_write _ := rfl
  write_mod v := by rw [Nat.mod_mod]
  read_write _ _ := rfl

/-- The least significant byte comes first. -/
def u16 : WordCodec where
  width := 2
  modulus := 65536
  write v := [v % 256, v / 256 % 256]
  read
    | b₀ :: b₁ :: rest => some (b₁ * 256 + b₀, rest)
    | _ => none
  length_write _ := rfl
  write_mod v := by
    refine List.cons_eq_cons.mpr ⟨?_, List.cons_eq_cons.mpr ⟨?_, rfl⟩⟩ <;> omega
  read_write v rest := by
    have h : v / 256 % 256 * 256 + v % 256 = v % 65536 := by omega
    simp only [List.cons_append, List.nil_append, h]

def u32 : WordCodec where
  width := 4
  modulus := 4294967296
  write v := [v % 256, v / 256 % 256, v / 65536 % 256, v / 16777216 % 256]
  read
    | b₀ :: b₁ :: b₂ :: b₃ :: rest => some (((b₃ * 256 + b₂) * 256 + b₁) * 256 + b₀, rest)
    | _ => none
  length_write _ := rfl
  write_mod v := by
    refine List.cons_eq_cons.mpr ⟨?_, List.cons_eq_cons.mpr ⟨?_, List.cons_eq_cons.mpr
      ⟨?_, List.cons_eq_cons.mpr ⟨?_, rfl⟩⟩⟩⟩ <;> omega
  read_write v rest := by
    have h : ((v / 16777216 % 256 * 256 + v / 65536 % 256) * 256 + v / 256 % 256) * 256 +
        v % 256 = v % 4294967296 := by omega
    simp only [List.cons_append, List.nil_append, h]

/-- Three bytes, the most significant one first. -/
def be24 : WordCodec where
  width := 3
  modulus := 16777216
  write v := [v / 65536 % 256, v / 256 % 256, v % 256]
  read
    | b₂ :: b₁ :: b₀ :: rest => some (b₂ * 65536 + b₁ * 256 + b₀, rest)
    | _ => none
  length_write _ := rfl
  write_mod v := by
    refine List.cons_eq_cons.mpr ⟨?_, List.cons_eq_cons.mpr ⟨?_, List.cons_eq_cons.mpr
      ⟨?_, rfl⟩⟩⟩ <;> omega
  read_write v rest := by
    have h : v / 65536 % 256 * 65536 + v / 256 % 256 * 256 + v % 256 = v % 16777216 := by omega
    simp only [List.cons_append, List.nil_append, h]

variable (c : WordCodec)

theorem read_write_of_lt {v : ℕ} (hv : v < c.modulus) (rest : List ℕ) :
    c.read (c.write v ++ rest) = some (v, rest) := by
  rw [c.read_write, Nat.mod_eq_of_lt hv]

def writeIf (flag : Bool) (v : ℕ) : List ℕ := if flag then c.write v else []

def readIf (flag : Bool) (old : ℕ) (bytes : List ℕ) : Option (ℕ × List ℕ) :=
  if flag then c.read bytes else some (old, bytes)

theorem length_writeIf (flag : Bool) (v : ℕ) :
    (c.writeIf flag v).length = c.width * flag.toNat := by
  cases flag with
  | false => rfl
  | true => exact (c.length_write v).trans (Nat.mul_one _).symm

theorem readIf_writeIf (flag : Bool) (old v : ℕ) (rest : List ℕ) :
    c.readIf flag old (c.writeIf flag v ++ rest) =
      some (if flag then v % c.modulus else old, rest) := by
  cases flag with
  | false => rfl
  | true => exact c.read_write v rest

theorem writeIf_readIf (flag : Bool) (old v : ℕ) :
    c.writeIf flag (if flag then v % c.modulus else old) = c.writeIf flag v := by
  cases flag with
  | false => rfl
  | true => exact c.write_mod v

end WordCodec

section Vectors

def writeVector : ℕ → List ℕ → Option (List ℕ)
  | 0, _ => some []
  | _ + 1, [] => none
  | n + 1, v :: vs => (writeVector n vs).map (WordCodec.u8.write v ++ ·)

def readVector : ℕ → List ℕ → Option (List ℕ × List ℕ)
  | 0, bytes => some ([], bytes)
  | n + 1, bytes => do
    let (v, bytes) ← WordCodec.u8.read bytes
    let (vs, bytes) ← readVector n bytes
    some (v :: vs, bytes)

theorem writeVector_of_le {n : ℕ} {vs : List ℕ} (hn : n ≤ vs.length) :
    writeVector n vs = some ((vs.take n).map (· % 256)) := by
  induction n generalizing vs with
  | zero => rfl
  | succ n ih =>
    cases vs with
    | nil => exact absurd hn (Nat.not_succ_le_zero n)
    | cons v vs =>
      rw [writeVector, ih (Nat.le_of_succ_le_succ hn)]
      rfl

theorem writeVector_bytes {vs : List ℕ} (hv : ∀ v ∈ vs, v < 256) :
    writeVector vs.length vs = some vs := by
  have hmap : vs.map (· % 256) = vs :=
    (List.map_congr_left fun v hmem => Nat.mod_eq_of_lt (hv v hmem)).trans (List.map_id vs)
  rw [writeVector_of_le (Nat.le_refl _), List.take_length, hmap]

theorem readVector_append (vs rest : List ℕ) :
    readVector vs.length (vs ++ rest) = some (vs, rest) := by
  induction vs with
  | nil => rfl
  | cons v vs ih =>
    have hread : WordCodec.u8.read (v :: (vs ++ rest)) = some (v, vs ++ rest) := rfl
    rw [List.length_cons, List.cons_append, readVector, hread]
    simp only [Option.bind_eq_bind, Option.bind_some, ih]

end Vectors

def wordOfBits : List Bool → ℕ
  | [] => 0
  | b :: bits => b.toNat + 2 * wordOfBits bits

def bitsOfWord : ℕ → ℕ → List Bool
  | 0, _ => []
  | n + 1, w => decide (w % 2 = 1) :: bitsOfWord n (w / 2)

theorem wordOfBits_lt (bits : List Bool) : wordOfBits bits < 2 ^ bits.length := by
  induction bits with
  | nil => exact Nat.one_pos
  | cons b bits ih =>
    have hb := Bool.toNat_le b
    simp only [wordOfBits, List.length_cons, Nat.pow_succ]
    omega

theorem bitsOfWord_wordOfBits (bits : List Bool) :
    bitsOfWord bits.length (wordOfBits bits) = bits := by
  induction bits with
  | nil => rfl
  | cons b bits ih =>
    have hmod : (b.toNat + 2 * wordOfBits bits) % 2 = b.toNat := by
      have hb := Bool.toNat_le b
      omega
    have hdiv : (b.toNat + 2 * wordOfBits bits) / 2 = wordOfBits bits := by
      have hb := Bool.toNat_le b
      omega
    simp only [List.length_cons, wordOfBits, bitsOfWord, hmod, hdiv, ih]
    cases b <;> rfl

end NetGymSim.Lib

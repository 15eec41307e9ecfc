import Mathlib.Data.List.Induction
import Mathlib.Data.Nat.Bitwise
import NetGymSim.Lib.Word
import NetGymSim.Network.PacketSerialize

/-!
# The nix-vector as a stack

Neighbor indices are put one above the other into 32-bit words, and taken from the top. An index
that does not fit the last word is split. The program is undefined where it shifts a word by 32
bits, which `ExtractNeighborIndex` does when the bits that are left fill their words, and where it
leaves the words.
-/

namespace NetGymSim.Network
open NetGymSim.Lib

def shl32 (x n : ℕ) : Option ℕ := if n < 32 then some ((x <<< n) % 2 ^ 32) else none

def shr32 (x n : ℕ) : Option ℕ := if n < 32 then some (x >>> n) else none

namespace NixVector

def empty : NixVector := ⟨0, 0, [], 0⟩

def getRemainingBits (s : NixVector) : ℕ := sub32 s.totalBitSize s.used

def addNeighborIndex (s : NixVector) (newBits numberOfBits : ℕ) : Option NixVector :=
  if numberOfBits > 32 then none
  else
    let currentVectorBitSize := s.totalBitSize % 32
    let words := if currentVectorBitSize = 0 then s.nixVector ++ [0] else s.nixVector
    let totalBitSize := add32 s.totalBitSize numberOfBits
    if currentVectorBitSize + numberOfBits > 32 then do
      let tempBits ← shl32 newBits currentVectorBitSize
      let back ← words.getLast?
      let newBits ← shr32 newBits (32 - currentVectorBitSize)
      some { s with
        nixVector := words.dropLast ++ [tempBits ||| back] ++ [newBits]
        totalBitSize := totalBitSize }
    else do
      let newBits ← shl32 newBits currentVectorBitSize
      let back ← words.getLast?
      some { s with
        nixVector := words.dropLast ++ [newBits ||| back]
        totalBitSize := totalBitSize }

def extractNeighborIndex (s : NixVector) (numberOfBits : ℕ) : Option (ℕ × NixVector) :=
  let totalRemainingBits := s.getRemainingBits
  if numberOfBits > 32 ∨ numberOfBits > totalRemainingBits ∨ numberOfBits = 0 then none
  else
    let vectorIndex := (totalRemainingBits - 1) / 32
    let rest := totalRemainingBits % 32
    let used := add32 s.used numberOfBits
    if vectorIndex > 0 ∧ numberOfBits - 1 > (totalRemainingBits - 1) % 32 then do
      let upper ← s.nixVector[vectorIndex]?
      let extractedBits ← shl32 upper (32 - rest)
      let extractedBits ← shr32 extractedBits (32 - rest - (numberOfBits - rest))
      let lower ← s.nixVector[vectorIndex - 1]?
      let lowerBits ← shr32 lower (32 - (numberOfBits - rest))
      some (extractedBits ||| lowerBits, { s with used := used })
    else do
      let entry ← s.nixVector[vectorIndex]?
      let extractedBits ← shl32 entry (32 - rest)
      let extractedBits ← shr32 extractedBits (32 - numberOfBits)
      some (extractedBits, { s with used := used })

/-- From the words of the buffer, with the size in bytes that the caller knows of; the vector is
missing where the buffer is too short. -/
def deserialize (buffer : List ℕ) (size : ℕ) : Option NixVector :=
  if size < 4 then none
  else do
    let totalBitSize ← buffer[0]?
    if totalBitSize = 0 then some empty
    else
      let used ← buffer[1]?
      let nixVectorLength := totalBitSize / 32 + if totalBitSize % 32 ≠ 0 then 1 else 0
      if size < 16 + nixVectorLength * 4 then none
      else
        let epoch ← buffer[2 + nixVectorLength]?
        some ⟨totalBitSize, used, (buffer.drop 2).take nixVectorLength, epoch⟩

def addAll (s : NixVector) (entries : List (ℕ × ℕ)) : Option NixVector :=
  entries.foldlM (fun s e => s.addNeighborIndex e.1 e.2) s

def extractAll : NixVector → List ℕ → Option (List ℕ × NixVector)
  | s, [] => some ([], s)
  | s, n :: widths => do
      let (v, s) ← s.extractNeighborIndex n
      let (values, s) ← s.extractAll widths
      some (v :: values, s)

def width (entries : List (ℕ × ℕ)) : ℕ := (entries.map Prod.snd).sum

/-- The entries are in the vector, and a copy that went through a packet is the same. The length
that `Packet::Serialize` passes on has the four bytes of the length itself. -/
def Has (s : NixVector) (entries : List (ℕ × ℕ)) : Prop :=
  s.getRemainingBits = width entries ∧
    (s.totalBitSize ≠ 0 → deserialize s.words (s.getSerializedSize + 4) = some s)

/-- The additions are defined, and extractions of the same widths in the reverse order give the
values back, from the first to the last of them. -/
structure ReadsBack (entries : List (ℕ × ℕ)) : Prop where
  adding : ∀ done, done <+: entries → ∃ s, empty.addAll done = some s ∧ s.Has done
  extracting : ∀ left taken, entries = left ++ taken → ∃ s,
    (empty.addAll entries).bind (fun s => s.extractAll (taken.map Prod.snd).reverse) =
      some ((taken.map Prod.fst).reverse, s) ∧ s.Has left

section Bits

def bitAt (words : List ℕ) (i : ℕ) : Bool := (words.getD (i / 32) 0).testBit (i % 32)

theorem bitAt_nil (i : ℕ) : bitAt [] i = false := by simp [bitAt]

theorem bitAt_cons (w : ℕ) (words : List ℕ) (i : ℕ) :
    bitAt (w :: words) i = if i < 32 then w.testBit i else bitAt words (i - 32) := by
  by_cases hi : i < 32
  · rw [if_pos hi, bitAt, Nat.div_eq_of_lt hi, Nat.mod_eq_of_lt hi]
    rfl
  · have hdiv : i / 32 = (i - 32) / 32 + 1 := by omega
    have hmod : i % 32 = (i - 32) % 32 := by omega
    rw [if_neg hi, bitAt, hdiv, hmod, List.getD_cons_succ]
    rfl

theorem bitAt_append (front words : List ℕ) (i : ℕ) :
    bitAt (front ++ words) i =
      if i < 32 * front.length then bitAt front i else bitAt words (i - 32 * front.length) := by
  induction front generalizing i with
  | nil => simp
  | cons w front ih =>
    rw [List.cons_append, bitAt_cons, bitAt_cons, ih, List.length_cons]
    by_cases hi : i < 32
    · rw [if_pos hi, if_pos hi, if_pos (by omega)]
    · have hsub : i - 32 - 32 * front.length = i - 32 * (front.length + 1) := by omega
      rw [if_neg hi, if_neg hi, hsub]
      by_cases hin : i < 32 * (front.length + 1)
      · rw [if_pos (by omega), if_pos hin]
      · rw [if_neg (by omega), if_neg hin]

theorem bitAt_word {words : List ℕ} {k w i : ℕ} (hw : words[k]? = some w) (hi : i < 32) :
    bitAt words (32 * k + i) = w.testBit i := by
  have hdiv : (32 * k + i) / 32 = k := by omega
  have hmod : (32 * k + i) % 32 = i := by omega
  rw [bitAt, hdiv, hmod, List.getD_eq_getElem?_getD, hw, Option.getD_some]

theorem shl32_eq {x n : ℕ} (hn : n < 32) : shl32 x n = some ((x <<< n) % 2 ^ 32) := if_pos hn

theorem shr32_eq {x n : ℕ} (hn : n < 32) : shr32 x n = some (x >>> n) := if_pos hn

theorem testBit_of_le {v n i : ℕ} (hv : v < 2 ^ n) (hi : n ≤ i) : v.testBit i = false :=
  Nat.testBit_lt_two_pow (hv.trans_le (Nat.pow_le_pow_right (by decide) hi))

end Bits

section Adding
variable {s : NixVector} {v n : ℕ}

/-- The words are as many as the bits need. -/
structure Packed (s : NixVector) : Prop where
  length : s.nixVector.length = (s.totalBitSize + 31) / 32
  word_lt : ∀ w ∈ s.nixVector, w < 2 ^ 32
  total_lt : s.totalBitSize < 2 ^ 32
  used_le : s.used ≤ s.totalBitSize

def Above (s : NixVector) (v : ℕ) (words : List ℕ) : Prop :=
  ∀ i, bitAt words i = (bitAt s.nixVector i || (decide (s.totalBitSize ≤ i) &&
    v.testBit (i - s.totalBitSize)))

theorem room_spec (hs : s.Packed) (hclear : ∀ i, s.totalBitSize ≤ i → bitAt s.nixVector i = false) :
    ∃ front back,
      (if s.totalBitSize % 32 = 0 then s.nixVector ++ [0] else s.nixVector) = front ++ [back] ∧
      front.length = s.totalBitSize / 32 ∧ (∀ w ∈ front ++ [back], w < 2 ^ 32) ∧
      ∀ i, bitAt (front ++ [back]) i = bitAt s.nixVector i := by
  have hlength := hs.length
  by_cases hzero : s.totalBitSize % 32 = 0
  · have hfront : s.nixVector.length = s.totalBitSize / 32 := by omega
    refine ⟨s.nixVector, 0, if_pos hzero, hfront, ?_, fun i => ?_⟩
    · intro w hw
      obtain hw | hw := List.mem_append.mp hw
      · exact hs.word_lt w hw
      · rw [List.mem_singleton.mp hw]
        decide
    · rw [bitAt_append]
      split_ifs with hi
      · rfl
      · rw [bitAt_cons, bitAt_nil, Nat.zero_testBit, ite_self, hclear i (by omega)]
  · have hne : s.nixVector ≠ [] := by
      intro hnil
      rw [hnil, List.length_nil] at hlength
      omega
    obtain ⟨front, back, hwords⟩ : ∃ front back, s.nixVector = front ++ [back] :=
      ⟨_, _, (List.dropLast_append_getLast hne).symm⟩
    rw [hwords, List.length_append, List.length_singleton] at hlength
    refine ⟨front, back, by rw [if_neg hzero, hwords], by omega, ?_, fun i => by rw [hwords]⟩
    rw [← hwords]
    exact hs.word_lt

theorem testBit_shifted {total i : ℕ} (v : ℕ) (hlow : ¬ i < 32 * (total / 32))
    (hhigh : i < 32 * (total / 32 + 1)) :
    ((v <<< (total % 32)) % 2 ^ 32).testBit (i - 32 * (total / 32)) =
      (decide (total ≤ i) && v.testBit (i - total)) := by
  have hplace : i - 32 * (total / 32) - total % 32 = i - total := by omega
  have hiff : total % 32 ≤ i - 32 * (total / 32) ↔ total ≤ i := by omega
  rw [Nat.testBit_mod_two_pow, Nat.testBit_shiftLeft, hplace, decide_eq_true (by omega),
    Bool.true_and]
  exact congrArg (· && _) (decide_eq_decide.mpr hiff)

theorem addNeighborIndex_spec (hs : s.Packed)
    (hclear : ∀ i, s.totalBitSize ≤ i → bitAt s.nixVector i = false) (hpos : 0 < n) (hn : n ≤ 32)
    (hv : v < 2 ^ n) (hfits : s.totalBitSize + n < 2 ^ 32) :
    ∃ words, s.addNeighborIndex v n =
        some { s with nixVector := words, totalBitSize := s.totalBitSize + n } ∧
      words.length = (s.totalBitSize + n + 31) / 32 ∧ (∀ w ∈ words, w < 2 ^ 32) ∧
      s.Above v words := by
  obtain ⟨front, back, hwords, hfront, hlt, hbits⟩ := room_spec hs hclear
  have hback : ∀ x, x < 2 ^ 32 → x ||| back < 2 ^ 32 := fun x hx =>
    Nat.or_lt_two_pow hx (hlt back (List.mem_append_right front List.mem_cons_self))
  have hshifted : ∀ x : ℕ, x % 2 ^ 32 ||| back < 2 ^ 32 := fun x =>
    hback _ (Nat.mod_lt x (by decide))
  have htotal : add32 s.totalBitSize n = s.totalBitSize + n := add32_of_lt hfits
  have hcur : s.totalBitSize % 32 < 32 := Nat.mod_lt _ (by decide)
  have hlast : (front ++ [back]).getLast? = some back := List.getLast?_concat
  have hinit : (front ++ [back]).dropLast = front := List.dropLast_concat
  rw [addNeighborIndex, if_neg (by omega)]
  dsimp only
  rw [hwords, hlast, hinit, htotal, shl32_eq hcur]
  by_cases hsplit : s.totalBitSize % 32 + n > 32
  · rw [if_pos hsplit, shr32_eq (by omega)]
    refine ⟨_, rfl, ?_, ?_, ?_⟩
    · simp only [List.length_append, List.length_singleton, hfront]
      omega
    · have hspill : v >>> (32 - s.totalBitSize % 32) < 2 ^ 32 :=
        (Nat.shiftRight_le v _).trans_lt (hv.trans_le (Nat.pow_le_pow_right (by decide) hn))
      intro w hw
      simp only [List.mem_append, List.mem_singleton] at hw
      obtain (hw | hw) | hw := hw
      · exact hlt w (List.mem_append_left [back] hw)
      · rw [hw]
        exact hshifted _
      · rw [hw]
        exact hspill
    · intro i
      rw [← hbits i, bitAt_append, bitAt_append, bitAt_append, List.length_append,
        List.length_singleton, hfront]
      by_cases hlow : i < 32 * (s.totalBitSize / 32)
      · have hhigh : i < 32 * (s.totalBitSize / 32 + 1) := by omega
        rw [if_pos hhigh, if_pos hlow, if_pos hlow, decide_eq_false (by omega), Bool.false_and,
          Bool.or_false]
      · rw [if_neg hlow, if_neg hlow]
        by_cases hhigh : i < 32 * (s.totalBitSize / 32 + 1)
        · have hplace : i - 32 * (s.totalBitSize / 32) < 32 := by omega
          rw [if_pos hhigh, bitAt_cons, bitAt_cons, if_pos hplace, if_pos hplace, Nat.testBit_or,
            testBit_shifted v hlow hhigh, Bool.or_comm]
        · have hplace : ¬ i - 32 * (s.totalBitSize / 32) < 32 := by omega
          rw [if_neg hhigh, bitAt_cons back, if_neg hplace, bitAt_nil, Bool.false_or, bitAt_cons,
            bitAt_nil, decide_eq_true (by omega), Bool.true_and]
          by_cases hnext : i - 32 * (s.totalBitSize / 32 + 1) < 32
          · have hshift : 32 - s.totalBitSize % 32 + (i - 32 * (s.totalBitSize / 32 + 1)) =
                i - s.totalBitSize := by omega
            rw [if_pos hnext, Nat.testBit_shiftRight, hshift]
          · rw [if_neg hnext, testBit_of_le hv (by omega)]
  · rw [if_neg hsplit]
    refine ⟨_, rfl, ?_, ?_, ?_⟩
    · simp only [List.length_append, List.length_singleton, hfront]
      omega
    · intro w hw
      obtain hw | hw := List.mem_append.mp hw
      · exact hlt w (List.mem_append_left [back] hw)
      · rw [List.mem_singleton.mp hw]
        exact hshifted _
    · intro i
      rw [← hbits i, bitAt_append, bitAt_append, hfront]
      by_cases hlow : i < 32 * (s.totalBitSize / 32)
      · rw [if_pos hlow, if_pos hlow, decide_eq_false (by omega), Bool.false_and, Bool.or_false]
      · rw [if_neg hlow, if_neg hlow, bitAt_cons, bitAt_cons, bitAt_nil]
        by_cases hhigh : i < 32 * (s.totalBitSize / 32 + 1)
        · have hplace : i - 32 * (s.totalBitSize / 32) < 32 := by omega
          rw [if_pos hplace, if_pos hplace, Nat.testBit_or, testBit_shifted v hlow hhigh,
            Bool.or_comm]
        · have hplace : ¬ i - 32 * (s.totalBitSize / 32) < 32 := by omega
          rw [if_neg hplace, if_neg hplace, testBit_of_le hv (by omega), Bool.and_false,
            Bool.or_false]

end Adding

section Extracting
variable {s : NixVector} {v n : ℕ}

theorem extract_full (hfull : s.getRemainingBits % 32 = 0) : s.extractNeighborIndex n = none := by
  have hshift : ∀ x, shl32 x (32 - s.getRemainingBits % 32) = none := by
    intro x
    rw [hfull]
    rfl
  rw [extractNeighborIndex]
  dsimp only
  split_ifs with hbad hspan
  · rfl
  · omega
  · cases s.nixVector[(s.getRemainingBits - 1) / 32]? with
    | none => rfl
    | some w =>
      rw [Option.bind_eq_bind, Option.bind_some, hshift]
      rfl

theorem extract_spec (hrest : s.getRemainingBits % 32 ≠ 0) (hpos : 0 < n) (hn : n ≤ 32)
    (hle : n ≤ s.getRemainingBits) (hlength : s.getRemainingBits ≤ 32 * s.nixVector.length)
    (hwords : ∀ w ∈ s.nixVector, w < 2 ^ 32) :
    ∃ x, s.extractNeighborIndex n = some (x, { s with used := add32 s.used n }) ∧
      ∀ i, x.testBit i =
        (decide (i < n) && bitAt s.nixVector (s.getRemainingBits - n + i)) := by
  generalize hrem : s.getRemainingBits = rem at *
  have hlast : rem % 32 < 32 := Nat.mod_lt _ (by decide)
  have hindex : (rem - 1) / 32 < s.nixVector.length := by omega
  obtain ⟨upper, hupper⟩ : ∃ w, s.nixVector[(rem - 1) / 32]? = some w :=
    ⟨_, List.getElem?_eq_getElem hindex⟩
  have hupperBit : ∀ j, j < 32 → bitAt s.nixVector (32 * ((rem - 1) / 32) + j) = upper.testBit j :=
    fun j hj => bitAt_word hupper hj
  rw [extractNeighborIndex]
  dsimp only
  rw [hrem, if_neg (by omega), hupper]
  by_cases hspan : (rem - 1) / 32 > 0 ∧ n - 1 > (rem - 1) % 32
  · have hindex' : (rem - 1) / 32 - 1 < s.nixVector.length := by omega
    obtain ⟨lower, hlower⟩ : ∃ w, s.nixVector[(rem - 1) / 32 - 1]? = some w :=
      ⟨_, List.getElem?_eq_getElem hindex'⟩
    have hlowerBit : ∀ j, j < 32 →
        bitAt s.nixVector (32 * ((rem - 1) / 32 - 1) + j) = lower.testBit j :=
      fun j hj => bitAt_word hlower hj
    rw [if_pos hspan, hlower]
    simp only [Option.bind_eq_bind, Option.bind_some, shl32_eq (show 32 - rem % 32 < 32 by omega),
      shr32_eq (show 32 - rem % 32 - (n - rem % 32) < 32 by omega),
      shr32_eq (show 32 - (n - rem % 32) < 32 by omega)]
    refine ⟨_, rfl, fun i => ?_⟩
    have hlower32 : lower < 2 ^ 32 := hwords lower (List.mem_of_getElem? hlower)
    rw [Nat.testBit_or, Nat.testBit_shiftRight, Nat.testBit_shiftRight, Nat.testBit_mod_two_pow,
      Nat.testBit_shiftLeft]
    by_cases hlow : i < n - rem % 32
    · -- the bits from the lower word
      have hplace : rem - n + i = 32 * ((rem - 1) / 32 - 1) + (32 - (n - rem % 32) + i) := by omega
      rw [decide_eq_false (by omega : ¬ 32 - rem % 32 ≤ 32 - rem % 32 - (n - rem % 32) + i),
        Bool.false_and, Bool.and_false, Bool.false_or, decide_eq_true (by omega), Bool.true_and,
        hplace, hlowerBit _ (by omega)]
    · rw [testBit_of_le hlower32 (by omega), Bool.or_false]
      by_cases hhigh : i < n
      · have hplace : rem - n + i = 32 * ((rem - 1) / 32) + (i - (n - rem % 32)) := by omega
        have hshift : 32 - rem % 32 - (n - rem % 32) + i - (32 - rem % 32) =
            i - (n - rem % 32) := by omega
        rw [hshift, hplace, hupperBit _ (by omega), decide_eq_true hhigh, Bool.true_and,
          decide_eq_true (by omega), decide_eq_true (by omega), Bool.true_and, Bool.true_and]
      · rw [decide_eq_false (by omega), decide_eq_false hhigh, Bool.false_and, Bool.false_and]
  · rw [if_neg hspan]
    simp only [Option.bind_eq_bind, Option.bind_some, shl32_eq (show 32 - rem % 32 < 32 by omega),
      shr32_eq (show 32 - n < 32 by omega)]
    refine ⟨_, rfl, fun i => ?_⟩
    rw [Nat.testBit_shiftRight, Nat.testBit_mod_two_pow, Nat.testBit_shiftLeft]
    by_cases hhigh : i < n
    · have hplace : rem - n + i = 32 * ((rem - 1) / 32) + (rem % 32 - n + i) := by omega
      have hshift : 32 - n + i - (32 - rem % 32) = rem % 32 - n + i := by omega
      rw [hshift, hplace, hupperBit _ (by omega), decide_eq_true hhigh, Bool.true_and,
        decide_eq_true (by omega), decide_eq_true (by omega), Bool.true_and, Bool.true_and]
    · rw [decide_eq_false (by omega), decide_eq_false hhigh, Bool.false_and, Bool.false_and]

end Extracting

section Stack
variable {s : NixVector} {entries es fs : List (ℕ × ℕ)}

def Fit (entries : List (ℕ × ℕ)) : Prop := ∀ e ∈ entries, 0 < e.2 ∧ e.2 ≤ 32 ∧ e.1 < 2 ^ e.2

def pack : List (ℕ × ℕ) → ℕ
  | [] => 0
  | (v, n) :: entries => v ||| (pack entries <<< n)

theorem width_cons (e : ℕ × ℕ) (entries : List (ℕ × ℕ)) :
    width (e :: entries) = e.2 + width entries := by
  rw [width, List.map_cons, List.sum_cons, width]

theorem width_append (es fs : List (ℕ × ℕ)) : width (es ++ fs) = width es + width fs := by
  rw [width, List.map_append, List.sum_append, width, width]

theorem testBit_pack_cons {e : ℕ × ℕ} (he : e.1 < 2 ^ e.2) (i : ℕ) :
    (pack (e :: es)).testBit i =
      if i < e.2 then e.1.testBit i else (pack es).testBit (i - e.2) := by
  rw [pack, Nat.testBit_or, Nat.testBit_shiftLeft]
  split_ifs with hi
  · rw [decide_eq_false (by omega), Bool.false_and, Bool.or_false]
  · rw [testBit_of_le he (by omega), Bool.false_or, decide_eq_true (by omega), Bool.true_and]

theorem testBit_pack_append (hes : Fit es) (i : ℕ) :
    (pack (es ++ fs)).testBit i =
      if i < width es then (pack es).testBit i else (pack fs).testBit (i - width es) := by
  induction es generalizing i with
  | nil => rfl
  | cons e es ih =>
    have he := (hes e List.mem_cons_self).2.2
    have hrest : Fit es := fun e he => hes e (List.mem_cons_of_mem _ he)
    rw [List.cons_append, testBit_pack_cons he, testBit_pack_cons he, ih hrest, width_cons]
    by_cases hi : i < e.2
    · rw [if_pos hi, if_pos hi, if_pos (by omega)]
    · have hsub : i - e.2 - width es = i - (e.2 + width es) := by omega
      rw [if_neg hi, if_neg hi, hsub]
      by_cases hlow : i < e.2 + width es
      · rw [if_pos (by omega), if_pos hlow]
      · rw [if_neg (by omega), if_neg hlow]

theorem testBit_pack_of_le (hes : Fit es) {i : ℕ} (hi : width es ≤ i) :
    (pack es).testBit i = false := by
  have happend := @testBit_pack_append es [] hes i
  rw [List.append_nil, if_neg (by omega)] at happend
  rw [happend]
  exact Nat.zero_testBit _

structure Added (s : NixVector) (entries : List (ℕ × ℕ)) : Prop where
  packed : s.Packed
  used : s.used = 0
  total : s.totalBitSize = width entries
  bits : ∀ i, bitAt s.nixVector i = (pack entries).testBit i

theorem Added.add (hs : s.Added es) (hes : Fit es) {v n : ℕ} (hfit : Fit [(v, n)])
    (hlt : width es + n < 2 ^ 32) :
    ∃ s', s.addNeighborIndex v n = some s' ∧ s'.Added (es ++ [(v, n)]) := by
  obtain ⟨hpos, hn, hv⟩ := hfit (v, n) List.mem_cons_self
  have htotal := hs.total
  have hclear : ∀ i, s.totalBitSize ≤ i → bitAt s.nixVector i = false := by
    intro i hi
    rw [hs.bits]
    exact testBit_pack_of_le hes (by omega)
  obtain ⟨words, hadd, hlength, hwords, habove⟩ :=
    addNeighborIndex_spec hs.packed hclear hpos hn hv (by omega)
  have hone : width [(v, n)] = n := Nat.add_zero n
  refine ⟨_, hadd, ⟨hlength, hwords, ?_, ?_⟩, hs.used, ?_, fun i => ?_⟩
  · dsimp only
    omega
  · exact hs.packed.used_le.trans (Nat.le_add_right _ n)
  · dsimp only
    rw [width_append, hone, htotal]
  · have hvalue : ∀ j, (pack [(v, n)]).testBit j = v.testBit j := by
      intro j
      rw [pack, pack, Nat.zero_shiftLeft, Nat.or_zero]
    dsimp only
    rw [habove i, hs.bits i, testBit_pack_append hes, hvalue, htotal]
    by_cases hi : i < width es
    · rw [if_pos hi, decide_eq_false (by omega), Bool.false_and, Bool.or_false]
    · rw [if_neg hi, testBit_pack_of_le hes (by omega), Bool.false_or, decide_eq_true (by omega),
        Bool.true_and]

theorem Added.empty : empty.Added [] := by
  refine ⟨⟨rfl, fun w hw => (List.not_mem_nil hw).elim, by decide, le_refl 0⟩, rfl, rfl, ?_⟩
  intro i
  rw [pack, Nat.zero_testBit]
  exact bitAt_nil i

theorem addAll_spec (hfit : Fit entries) (hlt : width entries < 2 ^ 32) :
    ∃ s, NixVector.empty.addAll entries = some s ∧ s.Added entries := by
  induction entries using List.reverseRecOn with
  | nil => exact ⟨NixVector.empty, rfl, Added.empty⟩
  | append_singleton es e ih =>
    have hes : Fit es := fun f hf => hfit f (List.mem_append_left [e] hf)
    have hone : Fit [e] := fun f hf => hfit f (List.mem_append_right es hf)
    rw [width_append, width_cons] at hlt
    obtain ⟨s, hs, hadded⟩ := ih hes (by omega)
    obtain ⟨s', hs', hadded'⟩ := hadded.add (v := e.1) (n := e.2) hes hone (by omega)
    refine ⟨s', ?_, hadded'⟩
    rw [addAll, List.foldlM_append]
    rw [addAll] at hs
    rw [hs]
    simp [hs']

theorem deserialize_words (hs : s.Packed) (hne : s.totalBitSize ≠ 0) :
    deserialize s.words (s.getSerializedSize + 4) = some s := by
  have hlength : s.totalBitSize / 32 + (if s.totalBitSize % 32 ≠ 0 then 1 else 0) =
      s.nixVector.length := by
    rw [hs.length]
    split_ifs <;> omega
  have hsize : s.getSerializedSize + 4 = 16 + s.nixVector.length * 4 := by
    rw [getSerializedSize, if_neg hne]
    omega
  have hwords : s.words = s.totalBitSize :: s.used :: (s.nixVector ++ [s.epoch]) := by
    rw [words, if_neg hne]
    rfl
  have hepoch : s.words[2 + s.nixVector.length]? = some s.epoch := by
    rw [hwords, Nat.add_comm]
    simp
  have htotal : s.words[0]? = some s.totalBitSize := by
    rw [hwords]
    rfl
  have hused : s.words[1]? = some s.used := by
    rw [hwords]
    rfl
  have hlist : (s.words.drop 2).take s.nixVector.length = s.nixVector := by
    rw [hwords]
    simp
  rw [deserialize, hsize, if_neg (by omega), htotal, Option.bind_eq_bind, Option.bind_some,
    if_neg hne, hused]
  simp only [Option.bind_some, hlength, hepoch, hlist, Nat.lt_irrefl, if_false]

theorem extract_last {left taken : List (ℕ × ℕ)} {e : ℕ × ℕ} {u : ℕ}
    (hs : s.Added (left ++ e :: taken)) (hfit : Fit (left ++ e :: taken))
    (hu : u = width taken) (hrest : (width left + e.2) % 32 ≠ 0) :
    extractNeighborIndex { s with used := u } e.2 =
      some (e.1, { s with used := width (e :: taken) }) := by
  have hleft : Fit left := fun f hf => hfit f (List.mem_append_left _ hf)
  obtain ⟨hpos, hn, hv⟩ := hfit e (List.mem_append_right left List.mem_cons_self)
  have htotal := hs.total
  have hlt := hs.packed.total_lt
  have hlength := hs.packed.length
  rw [width_append, width_cons] at htotal
  have hremaining : getRemainingBits { s with used := u } = width left + e.2 := by
    rw [getRemainingBits, sub32_of_le hlt (by dsimp only; omega)]
    dsimp only
    omega
  obtain ⟨x, hx, hbits⟩ := extract_spec (s := { s with used := u }) (n := e.2)
    (by rw [hremaining]; exact hrest) hpos hn (by rw [hremaining]; omega)
    (by rw [hremaining]; dsimp only; omega) hs.packed.word_lt
  have hvalue : x = e.1 := by
    apply Nat.eq_of_testBit_eq
    intro i
    rw [hbits, hremaining, Nat.add_sub_cancel, hs.bits, testBit_pack_append hleft,
      if_neg (by omega), Nat.add_sub_cancel_left, testBit_pack_cons hv]
    by_cases hi : i < e.2
    · rw [decide_eq_true hi, Bool.true_and, if_pos hi]
    · rw [decide_eq_false hi, Bool.false_and, testBit_of_le hv (by omega)]
  have hused : add32 u e.2 = width (e :: taken) := by
    rw [hu, width_cons, add32_of_lt (by omega), Nat.add_comm]
  rw [hx, hvalue]
  dsimp only
  rw [hused]

theorem extractAll_append (s : NixVector) (widths more : List ℕ) :
    s.extractAll (widths ++ more) = (s.extractAll widths).bind fun r =>
      (r.2.extractAll more).map fun t => (r.1 ++ t.1, t.2) := by
  induction widths generalizing s with
  | nil => simp [extractAll]
  | cons n widths ih =>
    rw [List.cons_append, extractAll, extractAll]
    cases s.extractNeighborIndex n with
    | none => rfl
    | some r =>
      simp only [Option.bind_eq_bind, Option.bind_some, ih]
      cases r.2.extractAll widths with
      | none => rfl
      | some t =>
        simp only [Option.bind_some]
        cases t.2.extractAll more with
        | none => rfl
        | some q => rfl

/-- No addition ends where a word does. -/
def NoneFull (entries : List (ℕ × ℕ)) : Prop :=
  ∀ done, done <+: entries → done ≠ [] → width done % 32 ≠ 0

theorem extractAll_spec {left taken : List (ℕ × ℕ)} (hs : s.Added (left ++ taken))
    (hfit : Fit (left ++ taken)) (hnone : NoneFull (left ++ taken)) :
    s.extractAll (taken.map Prod.snd).reverse =
      some ((taken.map Prod.fst).reverse, { s with used := width taken }) := by
  induction taken generalizing left with
  | nil =>
    have hused : { s with used := 0 } = s := by rw [← hs.used]
    exact congrArg (fun s => some ([], s)) hused.symm
  | cons e taken ih =>
    have hassoc : left ++ e :: taken = left ++ [e] ++ taken := by
      rw [List.append_assoc, List.singleton_append]
    have hdone := ih (hassoc ▸ hs) (hassoc ▸ hfit) (hassoc ▸ hnone)
    have hrest : (width left + e.2) % 32 ≠ 0 := by
      have hprefix : left ++ [e] <+: left ++ e :: taken := by
        rw [hassoc]
        exact List.prefix_append _ _
      have hne := hnone _ hprefix (by simp)
      rwa [width_append, width_cons] at hne
    have hlast := extract_last hs hfit rfl hrest
    rw [List.map_cons, List.reverse_cons, extractAll_append, hdone, Option.bind_some, extractAll,
      hlast]
    simp [extractAll]

theorem Added.has (hs : s.Added entries) : s.Has entries := by
  refine ⟨?_, deserialize_words hs.packed⟩
  rw [getRemainingBits, sub32_of_le hs.packed.total_lt hs.packed.used_le, hs.used, hs.total]
  exact Nat.sub_zero _

theorem remaining_lt (s : NixVector) : s.getRemainingBits < 2 ^ 32 := Nat.mod_lt _ (by decide)

theorem readsBack_of_noneFull (hfit : Fit entries) (hlt : width entries < 2 ^ 32)
    (hnone : NoneFull entries) : ReadsBack entries := by
  constructor
  · intro done hdone
    obtain ⟨rest, rfl⟩ := hdone
    rw [width_append] at hlt
    have hdone : Fit done := fun e he => hfit e (List.mem_append_left rest he)
    obtain ⟨s, hs, hadded⟩ := addAll_spec hdone (by omega)
    exact ⟨s, hs, hadded.has⟩
  · intro left taken hentries
    obtain ⟨s, hs, hadded⟩ := addAll_spec hfit hlt
    rw [hentries] at hadded hfit hnone
    have htotal := hadded.total
    have hbound := hadded.packed.total_lt
    rw [width_append] at htotal
    refine ⟨{ s with used := width taken }, ?_, ?_, ?_⟩
    · rw [hs, Option.bind_some, extractAll_spec hadded hfit hnone]
    · rw [getRemainingBits, sub32_of_le hbound (by dsimp only; omega)]
      dsimp only
      omega
    · apply deserialize_words
      exact ⟨hadded.packed.length, hadded.packed.word_lt, hbound, by dsimp only; omega⟩

theorem ReadsBack.noneFull (h : ReadsBack entries) : NoneFull entries := by
  intro done hdone hne hfull
  obtain ⟨taken, rfl⟩ := hdone
  obtain ⟨left, e, rfl⟩ : ∃ left e, done = left ++ [e] :=
    ⟨_, _, (List.dropLast_append_getLast hne).symm⟩
  obtain ⟨s, hs, hhas⟩ := h.extracting (left ++ [e]) taken rfl
  obtain ⟨s', hs', _⟩ := h.extracting left (e :: taken) (by simp)
  obtain ⟨start, hstart, hextract⟩ := Option.bind_eq_some_iff.mp hs
  rw [hstart, Option.bind_some, List.map_cons, List.reverse_cons, extractAll_append, hextract,
    Option.bind_some, extractAll, extract_full (by rw [hhas.1]; exact hfull)] at hs'
  cases hs'

end Stack

theorem indices_readBack_iff {entries : List (ℕ × ℕ)}
    (hfit : ∀ e ∈ entries, 0 < e.2 ∧ e.2 ≤ 32 ∧ e.1 < 2 ^ e.2) :
    ReadsBack entries ↔ width entries < 2 ^ 32 ∧
      ∀ done, done <+: entries → done ≠ [] → width done % 32 ≠ 0 := by
  constructor
  · intro h
    obtain ⟨s, _, hhas⟩ := h.adding entries (List.prefix_refl entries)
    exact ⟨hhas.1 ▸ remaining_lt s, h.noneFull⟩
  · intro h
    exact readsBack_of_noneFull hfit h.1 h.2

/-- Three entries, the last of them split over two words. -/
theorem readsBack_split :
    ReadsBack [(5, 3), (1000000, 28), (17, 5)] ↔ width [(5, 3), (1000000, 28), (17, 5)] < 2 ^ 32 ∧
      ∀ done, done <+: [(5, 3), (1000000, 28), (17, 5)] → done ≠ [] → width done % 32 ≠ 0 :=
  indices_readBack_iff (by decide)

/-- One index of 32 bits is shifted by 32 bits when it is extracted. -/
theorem readsBack_full :
    ¬ ∀ entries : List (ℕ × ℕ), (∀ e ∈ entries, 0 < e.2 ∧ e.2 ≤ 32 ∧ e.1 < 2 ^ e.2) →
      ReadsBack entries := by
  intro hall
  obtain ⟨s, hs, _⟩ := (hall [(7, 32)] (by decide)).extracting [] [(7, 32)] rfl
  revert hs
  have hnone : (empty.addAll [(7, 32)]).bind (fun s => s.extractAll [32]) = none := by
    decide +kernel
  rw [show ([(7, 32)].map Prod.snd).reverse = [32] from rfl, hnone]
  nofun

end NixVector
end NetGymSim.Network

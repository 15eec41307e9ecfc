import NetGymSim.Lib.BitFields
import Mathlib.Data.List.Basic

/-!
# Extension bits and length indicators

The data PDUs of RLC UM and of RLC AM carry, after their fixed part, one pair of an extension
bit and an 11-bit length indicator for each SDU piece but the last. A pair takes 12 bits; two
of them share three bytes, and one that is left over is padded to two. The codec is written
twice in the source with the same text.
-/

namespace NetGymSim.Lte
open NetGymSim.Lib

def dataFieldFollows : ℕ := 0
def eLiFieldsFollows : ℕ := 1

def pushExtensionLength (count : ℕ) : ℕ :=
  if count > 1 then if count % 2 = 1 then 1 else 2 else 0

def pairsLength (n : ℕ) : ℕ := n + (n + 1) / 2

theorem pairsLength_succ (n : ℕ) :
    pairsLength (n + 1) = pairsLength n + pushExtensionLength (n + 2) := by
  unfold pairsLength pushExtensionLength
  rw [if_pos (by omega)]
  split_ifs <;> omega

/-! ### Writing -/

def oddHigh (e li : ℕ) : ℕ := ((e <<< 7) &&& 0x80) ||| ((li >>> 4) &&& 0x7f)
def oddLow (li : ℕ) : ℕ := (li <<< 4) &&& 0xf0
def evenHigh (e li : ℕ) : ℕ := ((e <<< 3) &&& 0x08) ||| ((li >>> 8) &&& 0x07)

def writePairs : List ℕ → List ℕ → List ℕ
  | oddE :: evenE :: es, oddLi :: evenLi :: lis =>
      oddHigh oddE oddLi :: (oddLow oddLi ||| evenHigh evenE evenLi) :: (evenLi &&& 0xff) ::
        writePairs es lis
  | oddE :: _, oddLi :: _ => [oddHigh oddE oddLi, oddLow oddLi]
  | _, _ => []

/-! ### Reading -/

def readPairs : List ℕ → Option ((List ℕ × List ℕ) × List ℕ)
  | byte1 :: byte2 :: rest =>
      let oddE := (byte1 &&& 0x80) >>> 7
      let oddLi := ((byte1 &&& 0x7f) <<< 4) ||| ((byte2 &&& 0xf0) >>> 4)
      if oddE = eLiFieldsFollows then
        match rest with
        | byte3 :: rest =>
            let evenE := (byte2 &&& 0x08) >>> 3
            let evenLi := ((byte2 &&& 0x07) <<< 8) ||| (byte3 &&& 0xff)
            if evenE = eLiFieldsFollows then
              (readPairs rest).map fun pairs =>
                ((oddE :: evenE :: pairs.1.1, oddLi :: evenLi :: pairs.1.2), pairs.2)
            else some (([oddE, evenE], [oddLi, evenLi]), rest)
        | [] => none
      else some (([oddE], [oddLi]), rest)
  | _ => none

/-! ### Arithmetic -/

theorem oddHigh_eq (e li : ℕ) : oddHigh e li = 128 * (e % 2) + li / 16 % 128 := by
  unfold oddHigh
  rw [shiftLeft_and (m := 0x80) (w := 1) rfl, shiftRight_and (m := 0x7f) (w := 7) rfl]
  exact or_below (k := 7) (Nat.mod_lt _ (by omega)) _

theorem oddLow_eq (li : ℕ) : oddLow li = 16 * (li % 16) := shiftLeft_and (w := 4) (k := 4) rfl li

theorem evenHigh_eq (e li : ℕ) : evenHigh e li = 8 * (e % 2) + li / 256 % 8 := by
  unfold evenHigh
  rw [shiftLeft_and (m := 0x08) (w := 1) rfl, shiftRight_and (m := 0x07) (w := 3) rfl]
  exact or_below (k := 3) (Nat.mod_lt _ (by omega)) _

theorem middle_eq (e li li' : ℕ) :
    oddLow li ||| evenHigh e li' = 16 * (li % 16) + (8 * (e % 2) + li' / 256 % 8) := by
  rw [oddLow_eq, evenHigh_eq]
  exact or_below (k := 4) (by omega) _

theorem readOdd_eq (byte1 byte2 : ℕ) :
    ((byte1 &&& 0x7f) <<< 4) ||| ((byte2 &&& 0xf0) >>> 4) =
      16 * (byte1 % 128) + byte2 / 16 % 16 := by
  rw [and_mask (m := 0x7f) (w := 7) rfl, and_shiftRight (m := 0xf0) (w := 4) rfl,
    Nat.shiftLeft_eq, Nat.mul_comm]
  exact or_below (k := 4) (Nat.mod_lt _ (by omega)) _

theorem readEven_eq (byte2 byte3 : ℕ) :
    ((byte2 &&& 0x07) <<< 8) ||| (byte3 &&& 0xff) = 256 * (byte2 % 8) + byte3 % 256 := by
  rw [and_mask (m := 0x07) (w := 3) rfl, and_mask (m := 0xff) (w := 8) rfl, Nat.shiftLeft_eq,
    Nat.mul_comm]
  exact or_below (k := 8) (Nat.mod_lt _ (by omega)) _

theorem readPairs_cons (byte1 byte2 : ℕ) (rest : List ℕ) :
    readPairs (byte1 :: byte2 :: rest) =
      if byte1 / 128 % 2 = 1 then
        match rest with
        | byte3 :: rest =>
            let oddLi := 16 * (byte1 % 128) + byte2 / 16 % 16
            let evenLi := 256 * (byte2 % 8) + byte3 % 256
            if byte2 / 8 % 2 = 1 then
              (readPairs rest).map fun pairs =>
                ((1 :: 1 :: pairs.1.1, oddLi :: evenLi :: pairs.1.2), pairs.2)
            else some (([1, 0], [oddLi, evenLi]), rest)
        | [] => none
      else some (([0], [16 * (byte1 % 128) + byte2 / 16 % 16]), rest) := by
  have h1 := Nat.mod_lt (byte1 / 128) (by omega : 0 < 2)
  have h2 := Nat.mod_lt (byte2 / 8) (by omega : 0 < 2)
  have e1 : (byte1 &&& 0x80) >>> 7 = byte1 / 128 % 2 := and_shiftRight (w := 1) (k := 7) rfl byte1
  have e2 : (byte2 &&& 0x08) >>> 3 = byte2 / 8 % 2 := and_shiftRight (w := 1) (k := 3) rfl byte2
  have first (h : ¬ byte1 / 128 % 2 = 1) : byte1 / 128 % 2 = 0 := by omega
  have second (h : ¬ byte2 / 8 % 2 = 1) : byte2 / 8 % 2 = 0 := by omega
  cases rest with
  | nil =>
    rw [readPairs]
    simp only [e1, readOdd_eq, eLiFieldsFollows]
    split_ifs with h
    · rfl
    · rw [first h]
  | cons byte3 rest =>
    rw [readPairs]
    simp only [e1, e2, readOdd_eq, readEven_eq, eLiFieldsFollows]
    split_ifs with h h'
    · rw [h, h']
    · rw [h, second h']
    · rw [first h]

/-! ### Reading back -/

def extensions : ℕ → List ℕ
  | 0 => []
  | 1 => [dataFieldFollows]
  | n + 2 => eLiFieldsFollows :: extensions (n + 1)

theorem extensions_succ (n : ℕ) :
    extensions (n + 1) = List.replicate n eLiFieldsFollows ++ [dataFieldFollows] := by
  induction n with
  | zero => rfl
  | succ n ih => rw [extensions, ih, List.replicate_succ, List.cons_append]

theorem headD_extensions (n : ℕ) : (extensions (n + 1)).headD 0 = if n = 0 then 0 else 1 := by
  cases n <;> rfl

theorem tail_extensions (n : ℕ) : (extensions (n + 1)).tail = extensions n := by
  cases n <;> rfl

theorem length_writePairs : ∀ lis : List ℕ,
    (writePairs (extensions lis.length) lis).length = pairsLength lis.length
  | [] => rfl
  | [_] => by simp [extensions, writePairs, pairsLength]
  | [_, _] => by simp [extensions, writePairs, pairsLength]
  | li :: li' :: li'' :: lis => by
      have ih := length_writePairs (li'' :: lis)
      simp only [List.length_cons, extensions, writePairs] at ih ⊢
      rw [ih]
      unfold pairsLength
      omega

theorem readPairs_last {li : ℕ} (h : li < 2048) (rest : List ℕ) :
    readPairs (oddHigh 0 li :: oddLow li :: rest) = some (([0], [li]), rest) := by
  rw [readPairs_cons, oddHigh_eq, oddLow_eq, if_neg (by omega)]
  have hli : 16 * ((128 * (0 % 2) + li / 16 % 128) % 128) + 16 * (li % 16) / 16 % 16 = li := by
    omega
  rw [hli]

theorem readPairs_two {e li li' : ℕ} (he : e < 2) (h : li < 2048) (h' : li' < 2048)
    (rest : List ℕ) :
    readPairs (oddHigh 1 li :: (oddLow li ||| evenHigh e li') :: (li' &&& 0xff) :: rest) =
      if e = 1 then
        (readPairs rest).map fun pairs =>
          ((1 :: 1 :: pairs.1.1, li :: li' :: pairs.1.2), pairs.2)
      else some (([1, 0], [li, li']), rest) := by
  have hlow : li' &&& 0xff = li' % 256 := and_mask (w := 8) rfl li'
  rw [hlow, readPairs_cons, oddHigh_eq, middle_eq, if_pos (by omega)]
  have h1 : 16 * ((128 * (1 % 2) + li / 16 % 128) % 128) +
      (16 * (li % 16) + (8 * (e % 2) + li' / 256 % 8)) / 16 % 16 = li := by omega
  have h2 : 256 * ((16 * (li % 16) + (8 * (e % 2) + li' / 256 % 8)) % 8) + li' % 256 % 256 =
      li' := by omega
  have h3 : (16 * (li % 16) + (8 * (e % 2) + li' / 256 % 8)) / 8 % 2 = e := by omega
  simp only [h1, h2, h3]

theorem readPairs_writePairs : ∀ {lis : List ℕ}, lis ≠ [] → (∀ li ∈ lis, li < 2048) →
    ∀ rest, readPairs (writePairs (extensions lis.length) lis ++ rest) =
      some ((extensions lis.length, lis), rest)
  | [], hne, _, _ => absurd rfl hne
  | [li], _, hlt, rest => readPairs_last (hlt li List.mem_cons_self) rest
  | [li, li'], _, hlt, rest => by
      have hbytes : writePairs (extensions [li, li'].length) [li, li'] ++ rest =
          oddHigh 1 li :: (oddLow li ||| evenHigh 0 li') :: (li' &&& 0xff) :: rest := rfl
      rw [hbytes, readPairs_two (by omega) (hlt li (by simp)) (hlt li' (by simp)),
        if_neg (by omega)]
      rfl
  | li :: li' :: li'' :: lis, _, hlt, rest => by
      have ih := @readPairs_writePairs (li'' :: lis) (by simp)
        (fun x hx => hlt x (List.mem_cons_of_mem _ (List.mem_cons_of_mem _ hx))) rest
      have hfirst : writePairs (extensions (li :: li' :: li'' :: lis).length)
          (li :: li' :: li'' :: lis) ++ rest =
            oddHigh 1 li :: (oddLow li ||| evenHigh 1 li') :: (li' &&& 0xff) ::
              (writePairs (extensions (li'' :: lis).length) (li'' :: lis) ++ rest) := rfl
      rw [hfirst, readPairs_two (by omega) (hlt li (by simp)) (hlt li' (by simp)), if_pos rfl, ih]
      rfl

end NetGymSim.Lte

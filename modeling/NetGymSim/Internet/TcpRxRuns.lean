import NetGymSim.Internet.TcpRxEntries
import NetGymSim.Lib.Circular
import NetGymSim.Lib.Machine

/-!
# Reassembly over whole runs

The machine adds segments of one byte stream, extracts and learns of the FIN at the end
of the stream. A segment is accepted from within half of the sequence space of the next
expected number and of both ends of the window. `Holds` splits the map into the front
without a gap and the back; one lemma for each event keeps it.
-/

namespace NetGymSim.Internet.TcpRxBuffer
open Lib Network

def storedRange {α : Type*} (b : TcpRxBuffer α) (seq len : ℕ) : Option (ℕ × ℕ) :=
  let w := b.trimWindow seq len
  let r := trimOverlap b.data w.1 w.2 b.size
  if seqGe r.2.1 r.2.2.1 then none else some (r.2.1, r.2.2.1)

structure Run (α : Type*) where
  buf : TcpRxBuffer α
  out : List α
deriving DecidableEq

inductive Event
  | add (offset len : ℕ)
  | extract (maxSize : ℕ)
  | fin
deriving DecidableEq, Repr

section Machine
variable {α : Type*} (isn : ℕ) (stream : List α)

def Run.base (s : Run α) : ℕ := isn + s.out.length

def Run.position (s : Run α) (seq : ℕ) : ℕ :=
  s.base isn + forward 4294967296 seq (seqAt (s.base isn))

def Run.InReach (s : Run α) (head tail : ℕ) : Prop :=
  let next := s.position isn s.buf.nextRxSeq
  Near next head ∧ Near next tail ∧ Near head tail ∧
    ∀ e ∈ s.buf.data.head?,
      let first := s.position isn e.1
      ∀ p ∈ [first, first + s.buf.maxBuffer], Near p next ∧ Near p head ∧ Near p tail

instance (s : Run α) (head tail : ℕ) : Decidable (s.InReach isn head tail) := by
  unfold Run.InReach
  infer_instance

/-- Where a segment that ends at `last` is cut: the window starts with the first entry. -/
def Run.windowEnd (s : Run α) (last : ℕ) : ℕ :=
  match s.buf.data.head? with
  | none => last
  | some e => min last (s.position isn e.1 + s.buf.maxBuffer)

def Run.enabled (s : Run α) : Event → Prop
  | .add offset len =>
      offset + len ≤ stream.length ∧ s.InReach isn (isn + offset) (isn + offset + len)
  | .extract _ => True
  | .fin => Near (s.position isn s.buf.nextRxSeq) (isn + stream.length)

instance (s : Run α) : (e : Event) → Decidable (s.enabled isn stream e)
  | .add _ _ => inferInstanceAs (Decidable (_ ∧ _))
  | .extract _ => inferInstanceAs (Decidable True)
  | .fin => inferInstanceAs (Decidable (_ ∧ _))

def Run.next (s : Run α) : Event → Run α
  | .add offset len =>
      { s with buf := (s.buf.add ((stream.drop offset).take len) (seqAt (isn + offset))).1 }
  | .extract maxSize =>
      { buf := (s.buf.extract maxSize).1, out := s.out ++ (s.buf.extract maxSize).2 }
  | .fin => { s with buf := s.buf.setFinSequence (seqAt (isn + stream.length)) }

def receiver : Machine (Run α) Event where
  enabled s e := s.enabled isn stream e
  next s e := s.next isn stream e

instance (s : Run α) (e : Event) : Decidable ((receiver isn stream).enabled s e) :=
  inferInstanceAs (Decidable (s.enabled isn stream e))

def start (maxBuffer : ℕ) : Run α := ⟨create (seqAt isn) maxBuffer, []⟩

def Run.Stored (s : Run α) (p : ℕ) : Prop :=
  ∃ e ∈ s.buf.data, s.position isn e.1 ≤ p ∧ p < s.position isn e.1 + e.2.length

def Run.FirstMissing (s : Run α) (p : ℕ) : Prop :=
  s.base isn ≤ p ∧ ¬ s.Stored isn p ∧ ∀ q, s.base isn ≤ q → q < p → s.Stored isn q

structure Reassembled (s : Run α) (m : ℕ) : Prop where
  delivered : s.out <+: stream
  disjoint : s.buf.data.Pairwise fun e f =>
    s.position isn e.1 + e.2.length ≤ s.position isn f.1 ∨
      s.position isn f.1 + f.2.length ≤ s.position isn e.1
  size : s.buf.size = (s.buf.data.map fun e => e.2.length).sum
  missing : s.FirstMissing isn m
  available : s.buf.availBytes = m - s.base isn
  next : s.buf.nextRxSeq =
    seqAt (m + if s.buf.gotFin ∧ m = isn + stream.length then 1 else 0)

end Machine

section Invariant
variable {α : Type*} {isn : ℕ} {stream : List α} {s : Run α} {front back : List (ℕ × List α)}

def finished (isn : ℕ) (stream : List α) (b : TcpRxBuffer α) (m : ℕ) : ℕ :=
  if b.gotFin ∧ m = isn + stream.length then 1 else 0

structure Holds (isn : ℕ) (stream : List α) (s : Run α) (front back : List (ℕ × List α)) :
    Prop where
  data : s.buf.data = numbered (front ++ back)
  apart : Apart (s.base isn) (front ++ back)
  carries : ∀ e ∈ front ++ back, Carries isn stream e
  within : ∀ e ∈ front ++ back, finish e ≤ isn + stream.length
  tiles : Tiles (s.base isn) front
  beyond : ∀ e ∈ back, s.base isn + total front < e.1
  out : s.out = stream.take (s.base isn - isn)
  length : s.base isn ≤ isn + stream.length
  size : s.buf.size = total (front ++ back)
  avail : s.buf.availBytes = total front
  next : s.buf.nextRxSeq = seqAt (s.base isn + total front +
    finished isn stream s.buf (s.base isn + total front))
  fin : s.buf.gotFin = true → s.buf.finSeq = seqAt (isn + stream.length) ∧
    isn + stream.length < s.base isn + total front + 2147483648

/-- What of a segment is stored, and where. The entries of the back that are not kept lie in it,
behind its first byte, and end before the segment does. -/
structure Stores (isn : ℕ) (stream : List α) (s : Run α) (front back : List (ℕ × List α))
    (first last : ℕ) (e : ℕ × List α) (lows highs : List (ℕ × List α)) : Prop where
  expected : finished isn stream s.buf (s.base isn + total front) = 0
  kept : (lows ++ highs).Sublist back
  low : ∀ f ∈ lows, finish f ≤ e.1
  high : ∀ f ∈ highs, finish e ≤ f.1
  behind : s.base isn + total front ≤ e.1
  first_le : first ≤ e.1
  start : first ≤ s.base isn + total front → e.1 = s.base isn + total front
  nonempty : e.1 < finish e
  within : finish e < s.base isn + 2147483648
  length : finish e ≤ isn + stream.length
  carries : Carries isn stream e
  gone : ∀ f ∈ back, f ∉ lows ++ highs →
    e.1 < f.1 ∧ finish f < s.windowEnd isn last ∧ finish f ≤ finish e

namespace Holds

theorem front_le (h : Holds isn stream s front back) {e : ℕ × List α} (he : e ∈ front) :
    finish e ≤ s.base isn + total front := h.tiles.finish_le he

theorem next_le (h : Holds isn stream s front back) :
    s.base isn + total front ≤ isn + stream.length := by
  apply total_le (h.apart.sublist (List.sublist_append_left front back)).ordered
  · intro e he
    exact h.apart.starts e (List.mem_append_left back he)
  · intro e he
    exact h.within e (List.mem_append_left back he)
  · exact h.length

theorem front_lt (h : Holds isn stream s front back) : total front ≤ 2147483648 :=
  (h.apart.sublist (List.sublist_append_left front back)).total_le

theorem finished_le (isn : ℕ) (stream : List α) (b : TcpRxBuffer α) (m : ℕ) :
    finished isn stream b m ≤ 1 := by
  simp only [finished]
  split_ifs <;> omega

theorem position_at {p : ℕ} (h1 : s.base isn ≤ p) (h2 : p < s.base isn + 4294967296) :
    s.position isn (seqAt p) = p := by
  have hd : p - s.base isn < 4294967296 := by omega
  have hf := forward_residue (s.base isn) hd
  rw [show s.base isn + (p - s.base isn) = p by omega] at hf
  simp only [Run.position, seqAt, hf]
  omega

theorem position_next (h : Holds isn stream s front back) :
    s.position isn s.buf.nextRxSeq =
      s.base isn + total front + finished isn stream s.buf (s.base isn + total front) := by
  have h1 := h.front_lt
  have h2 := finished_le isn stream s.buf (s.base isn + total front)
  rw [h.next]
  exact position_at (by omega) (by omega)

theorem start (isn : ℕ) (stream : List α) (maxBuffer : ℕ) :
    Holds isn stream (start isn maxBuffer) [] [] where
  data := rfl
  apart := ⟨List.Pairwise.nil, by simp, by simp, by simp⟩
  carries := by simp
  within := by simp
  tiles := trivial
  beyond := by simp
  out := by simp [TcpRxBuffer.start, Run.base]
  length := by simp [TcpRxBuffer.start, Run.base]
  size := rfl
  avail := rfl
  next := by simp [TcpRxBuffer.start, Run.base, create, finished]
  fin := by simp [TcpRxBuffer.start, create]

section Fin

theorem setFin (h : Holds isn stream s front back) (he : s.enabled isn stream .fin) :
    Holds isn stream (s.next isn stream .fin) front back := by
  have hnear : Near (s.position isn s.buf.nextRxSeq) (isn + stream.length) := he
  have hle := h.next_le
  rw [h.position_next] at hnear
  have hinj := seqAt_inj hnear
  rw [← h.next] at hinj
  have hbase : (s.next isn stream .fin).base isn = s.base isn := rfl
  constructor
  · exact h.data
  · exact h.apart
  · exact h.carries
  · exact h.within
  · exact h.tiles
  · exact h.beyond
  · exact h.out
  · exact h.length
  · exact h.size
  · exact h.avail
  · rw [hbase]
    simp only [Run.next, setFinSequence, hinj, finished, true_and]
    simp only [finished] at hinj
    by_cases hend : s.base isn + total front = isn + stream.length
    · by_cases hfin : s.buf.gotFin = true
      · -- the FIN was counted before
        have hnext := h.next
        simp only [finished, hfin, hend, and_self, if_true] at hnext ⊢
        simp [hnext]
      · have hnext := h.next
        simp only [Bool.not_eq_true] at hfin
        simp [finished, hfin, hend] at hnext ⊢
        rw [hnext, seqAdd_at]
    · have hnext := h.next
      simp only [finished, hend, and_false, if_false, Nat.add_zero] at hnext ⊢
      exact hnext
  · intro _
    obtain ⟨h1, h2⟩ := hnear
    have := finished_le isn stream s.buf (s.base isn + total front)
    refine ⟨rfl, ?_⟩
    rw [hbase]
    simp only [finished] at h2
    split_ifs at h2 <;> omega

end Fin

section Extract

theorem extract (h : Holds isn stream s front back) (maxSize : ℕ) :
    ∃ front', Holds isn stream (s.next isn stream (.extract maxSize)) front' back ∧
      (s.next isn stream (.extract maxSize)).base isn + total front' =
        s.base isn + total front := by
  have hfront := h.front_lt
  have hnext := h.next_le
  have htot : total (front ++ back) ≤ 2147483648 := h.apart.total_le
  have hsum : total (front ++ back) = total front + total back := total_append _
  have hn : min maxSize s.buf.availBytes ≤ total front := by
    rw [h.avail]
    exact Nat.min_le_right _ _
  have hsize : s.buf.size < 4294967296 := by
    rw [h.size]
    omega
  have havail : s.buf.availBytes < 4294967296 := by
    rw [h.avail]
    omega
  obtain ⟨front', ha, ht, hc, htot', hr⟩ := extractLoop_spec h.apart h.tiles
    (fun e he => h.carries e (List.mem_append_left back he)) hn hsize (by rw [h.size]; omega)
    havail (Nat.min_le_right _ _) (Nat.le_add_right _ _) h.beyond
  rw [extractLoop_out, Prod.mk.injEq, Prod.mk.injEq, Prod.mk.injEq, ← h.data, ← h.out] at hr
  obtain ⟨hdata, hsize, havail, hout⟩ := hr
  have hbase : (s.next isn stream (.extract maxSize)).base isn =
      s.base isn + min maxSize s.buf.availBytes := by
    have hlen := congrArg List.length hout
    have h0 : isn ≤ s.base isn := Nat.le_add_right _ _
    rw [List.length_take] at hlen
    simp only [Run.base, Run.next, TcpRxBuffer.extract]
    simp only [Run.base] at hlen hnext hn h0
    omega
  have hm : (s.next isn stream (.extract maxSize)).base isn + total front' =
      s.base isn + total front := by omega
  refine ⟨front', ?_, hm⟩
  constructor
  all_goals try rw [hm]
  · exact hdata
  · rw [hbase]
    exact ha
  · intro e he
    rcases List.mem_append.mp he with he | he
    · exact hc e he
    · exact h.carries e (List.mem_append_right front he)
  · intro e he
    rcases List.mem_append.mp he with he | he
    · have := ht.finish_le he
      omega
    · exact h.within e (List.mem_append_right front he)
  · rw [hbase]
    exact ht
  · exact h.beyond
  · rw [hbase]
    exact hout
  · omega
  · rw [total_append, htot']
    have hsize' : (s.next isn stream (.extract maxSize)).buf.size =
        s.buf.size - min maxSize s.buf.availBytes := hsize
    rw [hsize', h.size]
    omega
  · have havail' : (s.next isn stream (.extract maxSize)).buf.availBytes =
        s.buf.availBytes - min maxSize s.buf.availBytes := havail
    rw [havail', h.avail, htot', h.avail]
  · exact h.next
  · exact h.fin

end Extract

section Add

theorem apart_insert (h : Holds isn stream s front back) {lows highs : List (ℕ × List α)}
    {e : ℕ × List α} (hk : (lows ++ highs).Sublist back) (hlow : ∀ f ∈ lows, finish f ≤ e.1)
    (hhigh : ∀ f ∈ highs, finish e ≤ f.1) (hstart : s.base isn + total front ≤ e.1)
    (hne : e.1 < finish e) (hend : finish e < s.base isn + 2147483648) :
    Apart (s.base isn) (front ++ (lows ++ e :: highs)) := by
  rw [← List.append_assoc]
  apply Apart.insert
  · rw [List.append_assoc]
    exact h.apart.sublist (hk.append_left front)
  · intro f hf
    rcases List.mem_append.mp hf with hf | hf
    · have := h.front_le hf
      omega
    · exact hlow f hf
  · exact hhigh
  · omega
  · exact hne
  · exact hend

theorem store (h : Holds isn stream s front back)
    (hno : finished isn stream s.buf (s.base isn + total front) = 0)
    {lows highs : List (ℕ × List α)} {e : ℕ × List α} (tail : ℕ) {sz : ℕ}
    (hk : (lows ++ highs).Sublist back) (hlow : ∀ f ∈ lows, finish f ≤ e.1)
    (hhigh : ∀ f ∈ highs, finish e ≤ f.1) (hstart : s.base isn + total front ≤ e.1)
    (hne : e.1 < finish e) (hend : finish e < s.base isn + 2147483648)
    (hlast : finish e ≤ isn + stream.length) (hc : Carries isn stream e)
    (hsz : sz + total back = s.buf.size + total (lows ++ highs)) :
    ∃ front₂ back₂, Holds isn stream ⟨TcpRxBuffer.store { s.buf with
        data := numbered (front ++ (lows ++ highs)), size := sz } (seqAt e.1) tail e.2, s.out⟩
        (front ++ front₂) back₂ ∧ lows ++ e :: highs = front₂ ++ back₂ ∧
      ∀ blocks, (if seqGt (seqAt e.1) s.buf.nextRxSeq then
          updateSackList s.buf.sackList (seqAt e.1) tail else s.buf.sackList) =
          numberedBlocks blocks →
        (∀ b ∈ blocks, s.base isn + total front < b.2 ∧ b.2 < s.base isn + 2147483648) →
        (TcpRxBuffer.store { s.buf with data := numbered (front ++ (lows ++ highs)), size := sz }
          (seqAt e.1) tail e.2).sackList =
          numberedBlocks (blocks.filter fun b => s.base isn + total (front ++ front₂) < b.2) := by
  have hsub : (front ++ (lows ++ highs)).Sublist (front ++ back) := hk.append_left front
  have happ : Apart (s.base isn) (front ++ (lows ++ e :: highs)) :=
    h.apart_insert hk hlow hhigh hstart hne hend
  have hins : insertData (seqAt e.1) e.2 (numbered (front ++ (lows ++ highs))) =
      numbered (front ++ (lows ++ e :: highs)) := by
    rw [← List.append_assoc] at happ
    have := insertData_numbered happ
    rwa [List.append_assoc, List.append_assoc] at this
  have hmem : ∀ f ∈ front ++ (lows ++ e :: highs), f = e ∨ f ∈ front ++ back := by
    intro f hf
    rw [← List.append_assoc] at hf
    cases List.mem_cons.mp (List.perm_middle.mem_iff.mp hf) with
    | inl heq => exact .inl heq
    | inr hmem => exact .inr (hsub.subset (List.append_assoc front lows highs ▸ hmem))
  have hmid : Apart (s.base isn) (lows ++ e :: highs) :=
    happ.sublist (List.sublist_append_right front _)
  have hbound := happ.total_le
  have hfront : total front + total (lows ++ e :: highs) ≤ 2147483648 := by
    rwa [total_append] at hbound
  have hcount : total front + total (lows ++ e :: highs) < 4294967296 := by omega
  have hlater : ∀ f ∈ lows ++ e :: highs, s.base isn + total front ≤ f.1 := by
    intro f hf
    cases List.mem_cons.mp (List.perm_middle.mem_iff.mp hf) with
    | inl heq => exact heq ▸ hstart
    | inr hmem => exact Nat.le_of_lt (h.beyond f (hk.subset hmem))
  have hnext : s.buf.nextRxSeq = seqAt (s.base isn + total front) := by
    rw [h.next, hno, Nat.add_zero]
  have hskip : ∀ f ∈ front, f.1 < s.base isn + total front := fun f hf =>
    Nat.lt_of_lt_of_le (happ.nonempty f (List.mem_append_left _ hf)) (h.front_le hf)
  generalize hsl : (if seqGt (seqAt e.1) s.buf.nextRxSeq
    then updateSackList s.buf.sackList (seqAt e.1) tail else s.buf.sackList) = sackList
  obtain ⟨front₂, back₂, sackList', hsplit, htiles, hback, hadv, hsack⟩ :=
    advance_spec sackList hmid (Nat.le_add_right _ _) (by omega) hlater hcount
  have hrun : advance (numbered (front ++ (lows ++ e :: highs))) (seqAt (s.base isn + total front))
      s.buf.availBytes sackList =
      (seqAt (s.base isn + total front + total front₂), total front + total front₂, sackList') := by
    rw [advance_skip happ (Nat.le_add_right _ _) (by omega) hskip, h.avail, hadv]
  have hall : front ++ (lows ++ e :: highs) = front ++ front₂ ++ back₂ := by
    rw [hsplit, List.append_assoc]
  have hm : s.base isn + total (front ++ front₂) = s.base isn + total front + total front₂ := by
    rw [total_append, Nat.add_assoc]
  have hdata : insertData (seqAt e.1) e.2 (numbered (front ++ (lows ++ highs))) =
      numbered (front ++ front₂ ++ back₂) := by rw [hins, hall]
  rw [hall] at happ hmem hbound hrun
  have hwithin : ∀ f ∈ front ++ front₂ ++ back₂, finish f ≤ isn + stream.length := by
    intro f hf
    rcases hmem f hf with rfl | hf
    · exact hlast
    · exact h.within f hf
  have hle : s.base isn + total front + total front₂ ≤ isn + stream.length := by
    rw [← hm]
    have hpre : (front ++ front₂).Sublist (front ++ front₂ ++ back₂) :=
      List.sublist_append_left _ _
    exact TcpRxBuffer.total_le (happ.sublist hpre).ordered (happ.sublist hpre).starts
      (fun f hf => hwithin f (hpre.subset hf)) h.length
  have hsackList : (TcpRxBuffer.store { s.buf with
      data := numbered (front ++ (lows ++ highs)), size := sz } (seqAt e.1) tail e.2).sackList =
      sackList' := by
    simp only [TcpRxBuffer.store, hnext] at hsl ⊢
    rw [hdata, hsl, hrun]
  refine ⟨front₂, back₂, ?_, hsplit, fun blocks hl hb => ?_⟩
  swap
  · rw [hsackList, hsack blocks hl hb, total_append, Nat.add_assoc]
  have hb : Run.base isn ⟨TcpRxBuffer.store { s.buf with
      data := numbered (front ++ (lows ++ highs)), size := sz } (seqAt e.1) tail e.2, s.out⟩ =
      s.base isn := rfl
  constructor
  · exact hdata
  · exact happ
  · intro f hf
    rcases hmem f hf with rfl | hf
    · exact hc
    · exact h.carries f hf
  · exact hwithin
  · exact h.tiles.append htiles
  · intro f hf
    rw [hb, hm]
    exact hback f hf
  · exact h.out
  · exact h.length
  · have hsum : total (front ++ front₂ ++ back₂) = total (front ++ (lows ++ e :: highs)) := by
      rw [hall]
    have hsize := h.size
    simp only [total_append, total_cons] at hsum hsize hsz hfront ⊢
    simp only [TcpRxBuffer.store]
    rw [add32_of_lt (by omega)]
    omega
  · simp only [TcpRxBuffer.store, hnext] at hsl ⊢
    rw [hdata, hsl, hrun, total_append]
  · rw [hb, hm]
    simp only [TcpRxBuffer.store, hnext, finished] at hsl ⊢
    rw [hdata, hsl, hrun]
    by_cases hfin : s.buf.gotFin = true
    · obtain ⟨hseq, hlt⟩ := h.fin hfin
      have hnear : Near (s.base isn + total front + total front₂) (isn + stream.length) :=
        ⟨by omega, by omega⟩
      simp only [hfin, hseq, seqAt_inj hnear, true_and]
      split_ifs <;> simp [seqAdd_at]
    · simp [hfin]
  · intro hfin
    obtain ⟨hseq, hlt⟩ := h.fin hfin
    refine ⟨hseq, ?_⟩
    rw [hb, hm]
    omega

/-- The segment after the trim to the window: something of it is left behind the front, or
nothing is. -/
inductive Window (base m : ℕ) (data : List (ℕ × List α)) (first last head tail : ℕ) : Prop
  | open (lt : head < tail) (first_le : first ≤ head) (next_le : m ≤ head) (le_last : tail ≤ last)
      (within : tail < base + 2147483648)
  | empty (nil : data = []) (le : tail ≤ head) (near : Near head tail)
  | closed (e : ℕ × List α) (rest : List (ℕ × List α)) (cons : data = e :: rest)
      (eq : head = tail) (near : Near e.1 tail) (within : e.1 ≤ tail → tail < base + 2147483648)

theorem finished_eq (hf : finished isn stream s.buf (s.base isn + total front) ≠ 0) :
    s.base isn + total front = isn + stream.length := by
  simp only [finished] at hf
  split_ifs at hf with hc
  · exact hc.2
  · omega

theorem trimWindow_spec (h : Holds isn stream s front back) {first len : ℕ}
    (hlen : first + len ≤ isn + stream.length) (hr : s.InReach isn first (first + len)) :
    ∃ head tail, s.buf.trimWindow (seqAt first) len = (seqAt head, seqAt tail) ∧
      tail = s.windowEnd isn (first + len) ∧
      (head < tail → head = max first (s.base isn + total front +
        finished isn stream s.buf (s.base isn + total front))) ∧
      Window (s.base isn)
        (s.base isn + total front + finished isn stream s.buf (s.base isn + total front))
        (front ++ back) first (first + len) head tail := by
  obtain ⟨r1, r2, r3, r4⟩ := hr
  rw [h.position_next] at r1 r2 r4
  have hnext := h.next
  have hfin := finished_le isn stream s.buf (s.base isn + total front)
  have hover : finished isn stream s.buf (s.base isn + total front) ≠ 0 →
      s.base isn + total front = isn + stream.length := finished_eq
  have hlast : first + len < s.base isn + total front + 2147483648 := by
    obtain ⟨r21, r22⟩ := r2
    omega
  set m := s.base isn + total front + finished isn stream s.buf (s.base isn + total front) with hm
  have hhead : (if seqLt (seqAt first) s.buf.nextRxSeq then s.buf.nextRxSeq else seqAt first) =
      seqAt (max first m) := by
    rw [hnext]
    simp only [seqLt_at r1.symm]
    split_ifs with hlt
    · rw [Nat.max_eq_right (Nat.le_of_lt hlt)]
    · rw [Nat.max_eq_left (Nat.le_of_not_lt hlt)]
  rcases hdata : front ++ back with _ | ⟨e, rest⟩
  · have hnil : s.buf.data = [] := by rw [h.data, hdata, numbered_nil]
    refine ⟨max first m, first + len, ?_, ?_, fun _ => rfl, ?_⟩
    · simp only [trimWindow, hnil, hhead, seqAdd_at]
    · rw [Run.windowEnd, hnil]
      rfl
    · obtain ⟨r31, r32⟩ := r3
      obtain ⟨r21, r22⟩ := r2
      obtain ⟨rfl, -⟩ := List.append_eq_nil_iff.mp hdata
      by_cases hlt : max first m < first + len
      · apply Window.open hlt (Nat.le_max_left _ _) (Nat.le_max_right _ _) le_rfl
        simpa using hlast
      · exact .empty rfl (by omega) ⟨by omega, by omega⟩
  · have happ := h.apart
    rw [hdata] at happ
    have hs := happ.starts e List.mem_cons_self
    have hn := happ.nonempty e List.mem_cons_self
    have hend := happ.ends e List.mem_cons_self
    have hcons : s.buf.data = (seqAt e.1, e.2) :: numbered rest := by
      rw [h.data, hdata, numbered_cons]
    have hpos : s.position isn (seqAt e.1) = e.1 := position_at hs (by omega)
    have hr4 := r4 (seqAt e.1, e.2) (by simp [hcons])
    simp only [hpos, List.mem_cons, List.not_mem_nil, or_false, forall_eq_or_imp,
      forall_eq] at hr4
    obtain ⟨⟨a1, a2, a3⟩, b1, b2, b3⟩ := hr4
    have htail : (if seqLt (seqAdd (seqAt e.1) s.buf.maxBuffer) (seqAt (first + len)) then
        seqAdd (seqAt e.1) s.buf.maxBuffer else seqAt (first + len)) =
        seqAt (min (first + len) (e.1 + s.buf.maxBuffer)) := by
      rw [seqAdd_at]
      simp only [seqLt_at b3]
      split_ifs with hlt
      · rw [Nat.min_eq_right (Nat.le_of_lt hlt)]
      · rw [Nat.min_eq_left (Nat.le_of_not_lt hlt)]
    obtain ⟨r11, r12⟩ := r1
    obtain ⟨r21, r22⟩ := r2
    obtain ⟨r31, r32⟩ := r3
    obtain ⟨a11, a12⟩ := a1
    obtain ⟨a31, a32⟩ := a3
    obtain ⟨b11, b12⟩ := b1
    obtain ⟨b21, b22⟩ := b2
    obtain ⟨b31, b32⟩ := b3
    have hnear : Near (min (first + len) (e.1 + s.buf.maxBuffer)) (max first m) :=
      ⟨by omega, by omega⟩
    refine ⟨min (max first m) (min (first + len) (e.1 + s.buf.maxBuffer)),
      min (first + len) (e.1 + s.buf.maxBuffer), ?_, ?_, fun hlt => by omega, ?_⟩
    · simp only [trimWindow, hcons, hhead, seqAdd_at (first)]
      rw [htail]
      simp only [seqLt_at hnear]
      split_ifs with hlt
      · rw [Nat.min_eq_right (Nat.le_of_lt hlt)]
      · rw [Nat.min_eq_left (Nat.le_of_not_lt hlt)]
    · rw [Run.windowEnd, hcons]
      exact congrArg (fun p => min (first + len) (p + s.buf.maxBuffer)) hpos.symm
    · -- the first entry starts the front, or the front is empty
      have hbound : e.1 = s.base isn ∨ first + len < s.base isn + 2147483648 := by
        cases front with
        | nil => exact .inr (by simpa using hlast)
        | cons f front' =>
          have hf : f = e := (List.cons.inj hdata).1
          exact .inl (hf ▸ h.tiles.1)
      by_cases hlt : max first m < min (first + len) (e.1 + s.buf.maxBuffer)
      · rw [Nat.min_eq_left (Nat.le_of_lt hlt)]
        apply Window.open hlt (Nat.le_max_left _ _) (Nat.le_max_right _ _) (Nat.min_le_left _ _)
        omega
      · rw [Nat.min_eq_right (Nat.le_of_not_lt hlt)]
        exact .closed e rest rfl rfl ⟨by omega, by omega⟩ (by omega)

theorem add_unchanged {b : TcpRxBuffer α} {p : List α} {seq head tail : ℕ}
    (hr : trimOverlap b.data (b.trimWindow seq p.length).1 (b.trimWindow seq p.length).2 b.size =
      (b.data, head, tail, b.size)) (hge : seqGe head tail) : (b.add p seq).1 = b := by
  simp only [TcpRxBuffer.add, hr, hge, if_true]

theorem add_stored {b : TcpRxBuffer α} {p : List α} {seq head tail size : ℕ}
    {data : List (ℕ × List α)}
    (hr : trimOverlap b.data (b.trimWindow seq p.length).1 (b.trimWindow seq p.length).2 b.size =
      (data, head, tail, size)) (hge : ¬ seqGe head tail) :
    (b.add p seq).1 = { b with data := data, size := size }.store head tail
      ((p.drop (seqSub head seq % 4294967296).toNat).take
        (seqSub tail head % 4294967296).toNat) := by
  simp only [TcpRxBuffer.add, hr, hge, if_false]

theorem Carries.of_segment {offset len head tail : ℕ} (hlen : offset + len ≤ stream.length)
    (h1 : isn + offset ≤ head) (h2 : head < tail) (h3 : tail ≤ isn + offset + len) :
    Carries isn stream (head, (((stream.drop offset).take len).drop (head - (isn + offset))).take
      (tail - head)) ∧
    ((((stream.drop offset).take len).drop (head - (isn + offset))).take (tail - head)).length =
      tail - head := by
  have heq : (((stream.drop offset).take len).drop (head - (isn + offset))).take (tail - head) =
      (stream.drop (head - isn)).take (tail - head) := by
    rw [List.drop_take, List.drop_drop, List.take_take, Nat.min_eq_left (by omega),
      show offset + (head - (isn + offset)) = head - isn by omega]
  have hlength : ((stream.drop (head - isn)).take (tail - head)).length = tail - head := by
    rw [List.length_take, List.length_drop]
    omega
  rw [heq]
  exact ⟨⟨by simp only; omega, by simp only [hlength]⟩, hlength⟩

theorem add_cases (h : Holds isn stream s front back) {offset len : ℕ}
    (he : s.enabled isn stream (.add offset len)) :
    s.next isn stream (.add offset len) = s ∧ s.buf.storedRange (seqAt (isn + offset)) len = none ∨
    ∃ e lows highs size,
      s.buf.storedRange (seqAt (isn + offset)) len = some (seqAt e.1, seqAt (finish e)) ∧
      Stores isn stream s front back (isn + offset) (isn + offset + len) e lows highs ∧
      size + total back = s.buf.size + total (lows ++ highs) ∧
      s.next isn stream (.add offset len) = ⟨TcpRxBuffer.store { s.buf with
        data := numbered (front ++ (lows ++ highs)), size := size } (seqAt e.1)
          (seqAt (finish e)) e.2, s.out⟩ := by
  obtain ⟨hlen, hreach⟩ := he
  have hsegment : ((stream.drop offset).take len).length = len := by
    rw [List.length_take, List.length_drop]
    omega
  obtain ⟨head, tail, hw, hcut, hmax, hcase⟩ := h.trimWindow_spec (by omega) hreach
  have htot := h.apart.total_le
  have hsize := h.size
  rw [total_append] at htot hsize
  have hs32 : s.buf.size < 4294967296 := by omega
  have hself : ∀ p, seqGe (seqAt p) (seqAt p) := fun p => .inr rfl
  have hkeep : ∀ {r1 r2}, seqGe r1 r2 →
      trimOverlap s.buf.data (seqAt head) (seqAt tail) s.buf.size =
      (s.buf.data, r1, r2, s.buf.size) → s.next isn stream (.add offset len) = s ∧
        s.buf.storedRange (seqAt (isn + offset)) len = none := by
    intro r1 r2 hge hr
    have hbuf : (s.buf.add ((stream.drop offset).take len) (seqAt (isn + offset))).1 = s.buf := by
      apply add_unchanged _ hge
      rw [hsegment, hw]
      exact hr
    refine ⟨by simp only [Run.next, hbuf], ?_⟩
    simp only [storedRange, hw, hr, hge, if_true]
  cases hcase with
  | empty hnil hle hnear =>
    rw [h.data, hnil] at hkeep
    exact .inl (hkeep ((seqGe_at hnear).mpr hle) rfl)
  | closed e rest hcons heq hnear hwithin =>
    subst heq
    have happ := h.apart
    rw [h.data] at hkeep
    rw [hcons] at happ hkeep
    have hs := happ.starts e List.mem_cons_self
    by_cases hle : e.1 ≤ head
    · obtain ⟨kept, head', tail', hk, hrep, hr⟩ := trimOverlap_spec happ (by omega) le_rfl
        (hwithin hle) hs32 (by rw [← hcons, total_append]; omega)
      rcases hk.outcome with ⟨hge, rfl⟩ | ⟨h1, h2, h3, -⟩
      · have hnear := near_within hk.head_within.1 hk.head_within.2 hk.tail_within.1
          hk.tail_within.2
        have hge' : seqGe (seqAt head') (seqAt tail') := (seqGe_at hnear).mpr hge
        exact .inl (hkeep hge' (hr.trans (by simp)))
      · omega
    · refine .inl (hkeep (hself head) ?_)
      have hnot : ¬ seqLe (seqAt e.1) (seqAt head) := by
        rw [seqLe_at hnear]
        exact hle
      simp only [numbered_cons, trimOverlap, hnot, if_false]
  | «open» hlt hfirst hnext hlast hwithin =>
    have hno : finished isn stream s.buf (s.base isn + total front) = 0 := by
      by_contra hne
      have := finished_eq hne
      omega
    rw [hno, Nat.add_zero] at hnext
    have hfront : ∀ e ∈ front, finish e ≤ head := fun e he => (h.front_le he).trans hnext
    have hback : Apart (s.base isn) back := h.apart.sublist (List.sublist_append_right front back)
    obtain ⟨kept, head', tail', hk, hrep, hr⟩ := trimOverlap_spec hback (by omega)
      (Nat.le_of_lt hlt) hwithin hs32 (by omega)
    have hall := trimOverlap_front s.buf.size h.apart hfront (by omega) (Nat.le_of_lt hlt) hwithin
    rw [hr, ← h.data] at hall
    have hnear := near_within hk.head_within.1 hk.head_within.2 hk.tail_within.1 hk.tail_within.2
    rcases hk.outcome with ⟨hge, rfl⟩ | ⟨h1, h2, h3, lows, highs, rfl, hlow, hhigh⟩
    · refine .inl (hkeep ((seqGe_at hnear).mpr hge) ?_)
      rw [hall, ← numbered_append, ← h.data]
      simp
    · have hnot : ¬ seqGe (seqAt head') (seqAt tail') := by
        rw [seqGe_at hnear]
        omega
      have hin : isn + offset ≤ head' := by omega
      obtain ⟨hc, hlength⟩ := Carries.of_segment hlen hin h1 (by omega)
      obtain ⟨-, -, ⟨r31, r32⟩, -⟩ := hreach
      have hstart : (seqSub (seqAt head') (seqAt (isn + offset)) % 4294967296).toNat =
          head' - (isn + offset) := by
        rw [seqSub_at ⟨by omega, by omega⟩]
        omega
      have hpiece : (seqSub (seqAt tail') (seqAt head') % 4294967296).toNat = tail' - head' := by
        rw [seqSub_at ⟨by omega, by omega⟩]
        omega
      have hbuf := add_stored (p := (stream.drop offset).take len) (by
        rw [hsegment, hw]
        exact hall) hnot
      rw [hstart, hpiece, ← numbered_append] at hbuf
      generalize (((stream.drop offset).take len).drop (head' - (isn + offset))).take
        (tail' - head') = bytes at hbuf hc hlength
      have hfin : finish (head', bytes) = tail' := by
        simp only [finish, hlength]
        omega
      refine .inr ⟨(head', bytes), lows, highs, s.buf.size + total (lows ++ highs) - total back,
        ?_, ?_, by omega, ?_⟩
      · simp only [storedRange, hw, hall, hnot, if_false, hfin]
      · constructor
        · exact hno
        · exact hk.sublist
        · exact hlow
        · rw [hfin]
          exact hhigh
        · exact hnext.trans h2
        · exact hin
        · intro hle
          have hfirst : head' = head := by
            apply hrep.first
            intro f hf
            have := h.beyond f hf
            have := hmax hlt
            omega
          have := hmax hlt
          simp only
          omega
        · rw [hfin]
          exact h1
        · rw [hfin]
          exact hk.tail_within.2
        · rw [hfin]
          omega
        · exact hc
        · rw [hfin, ← hcut]
          exact hrep.gone
      · rw [hfin]
        simp only [Run.next, hbuf]

theorem add (h : Holds isn stream s front back) {offset len : ℕ}
    (he : s.enabled isn stream (.add offset len)) :
    ∃ front' back', Holds isn stream (s.next isn stream (.add offset len)) front' back' := by
  rcases h.add_cases he with ⟨heq, -⟩ | ⟨e, lows, highs, size, -, hst, hsize, heq⟩
  · rw [heq]
    exact ⟨front, back, h⟩
  · obtain ⟨front₂, back₂, h', -⟩ := h.store hst.expected (seqAt (finish e)) hst.kept hst.low
      hst.high hst.behind hst.nonempty hst.within hst.length hst.carries hsize
    rw [heq]
    exact ⟨front ++ front₂, back₂, h'⟩

end Add

theorem step (h : Holds isn stream s front back) {e : Event} (he : s.enabled isn stream e) :
    ∃ front' back', Holds isn stream (s.next isn stream e) front' back' := by
  cases e with
  | add offset len => exact h.add he
  | extract maxSize =>
    obtain ⟨front', h', -⟩ := h.extract maxSize
    exact ⟨front', back, h'⟩
  | fin => exact ⟨front, back, h.setFin he⟩

theorem position_mem (h : Holds isn stream s front back) {e : ℕ × List α}
    (he : e ∈ front ++ back) : s.position isn (seqAt e.1) = e.1 := by
  have hs := h.apart.starts e he
  have hn := h.apart.nonempty e he
  have hend := h.apart.ends e he
  exact position_at hs (by omega)

theorem stored_iff (h : Holds isn stream s front back) (p : ℕ) :
    s.Stored isn p ↔ ∃ e ∈ front ++ back, e.1 ≤ p ∧ p < finish e := by
  simp only [Run.Stored, h.data, numbered, List.mem_map]
  constructor
  · rintro ⟨_, ⟨e, he, rfl⟩, h1, h2⟩
    simp only [h.position_mem he] at h1 h2
    exact ⟨e, he, h1, h2⟩
  · rintro ⟨e, he, h1, h2⟩
    refine ⟨_, ⟨e, he, rfl⟩, ?_⟩
    simp only [h.position_mem he]
    exact ⟨h1, h2⟩

theorem reassembled (h : Holds isn stream s front back) :
    Reassembled isn stream s (s.base isn + total front) where
  delivered := by
    rw [h.out]
    exact List.take_prefix _ _
  disjoint := by
    rw [h.data, numbered, List.pairwise_map]
    apply h.apart.ordered.imp_of_mem
    intro e f he hf hle
    rw [h.position_mem he, h.position_mem hf]
    exact .inl hle
  size := by
    rw [h.size, h.data, numbered, List.map_map]
    rfl
  missing := by
    refine ⟨Nat.le_add_right _ _, ?_, ?_⟩
    · rw [h.stored_iff]
      rintro ⟨e, he, h1, h2⟩
      rcases List.mem_append.mp he with he | he
      · have := h.front_le he
        omega
      · have := h.beyond e he
        omega
    · intro q h1 h2
      rw [h.stored_iff]
      obtain ⟨e, he, hq⟩ := h.tiles.covered h1 h2
      exact ⟨e, List.mem_append_left back he, hq⟩
  available := by
    rw [h.avail]
    omega
  next := h.next

end Holds
end Invariant

theorem tcp_rx_buffer_reassembles {α : Type*} (isn maxBuffer : ℕ) (stream : List α)
    {es : List Event} {s : Run α} (h : (receiver isn stream).Reaches (start isn maxBuffer) es s) :
    ∃ m, Reassembled isn stream s m := by
  have h0 : ∃ front back, Holds isn stream (start isn maxBuffer) front back :=
    ⟨[], [], .start isn stream maxBuffer⟩
  obtain ⟨front, back, hs⟩ := Machine.Reaches.invariant
    (P := fun s => ∃ front back, Holds isn stream s front back) h0
    (fun s e ⟨front, back, hs⟩ he => hs.step he) h
  exact ⟨_, hs.reassembled⟩

/-- Twelve bytes across the wrap of the sequence numbers, with overlaps, a gap and the FIN. -/
theorem tcp_rx_buffer_reassembles_across_wrap :
    ((receiver 4294967290 (List.range 12)).exec (start 4294967290 100)
      [.add 4 3, .add 8 2, .fin, .add 2 9, .extract 5, .add 0 5, .extract 7, .add 9 3]).out =
        List.range 7 ∧
    ∃ m, Reassembled 4294967290 (List.range 12)
      ((receiver 4294967290 (List.range 12)).exec (start 4294967290 100)
        [.add 4 3, .add 8 2, .fin, .add 2 9, .extract 5, .add 0 5, .extract 7, .add 9 3]) m :=
  ⟨by decide +kernel, tcp_rx_buffer_reassembles 4294967290 100 (List.range 12)
    (Machine.Permits.reaches (by decide +kernel))⟩

end NetGymSim.Internet.TcpRxBuffer

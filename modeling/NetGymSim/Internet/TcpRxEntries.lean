import Mathlib.Algebra.Order.Ring.Nat
import NetGymSim.Internet.TcpRxBuffer

/-!
# The entries of the receive buffer

The entries of the map are seen at their stream positions: a front that starts at the
first byte not yet extracted and has no gap, and a back of entries behind a gap. Trimming
leaves the front alone, the stored rest of a segment falls between two entries, and the
counters are read off the new front. All positions in use lie within half of the sequence
space of one another, so the comparisons of the source are those of the positions.
-/

namespace NetGymSim.Internet.TcpRxBuffer
open Lib Network
variable {α : Type*} {base head tail size : ℕ} {items front back : List (ℕ × List α)}

def numbered (items : List (ℕ × List α)) : List (ℕ × List α) :=
  items.map fun e => (seqAt e.1, e.2)

def finish (e : ℕ × List α) : ℕ := e.1 + e.2.length

def total (items : List (ℕ × List α)) : ℕ := (items.map fun e => e.2.length).sum

structure Apart (base : ℕ) (items : List (ℕ × List α)) : Prop where
  ordered : items.Pairwise fun e f => finish e ≤ f.1
  starts : ∀ e ∈ items, base ≤ e.1
  nonempty : ∀ e ∈ items, e.1 < finish e
  ends : ∀ e ∈ items, finish e < base + 2147483648

def Tiles : ℕ → List (ℕ × List α) → Prop
  | _, [] => True
  | a, e :: rest => e.1 = a ∧ Tiles (finish e) rest

@[simp] theorem total_nil : total ([] : List (ℕ × List α)) = 0 := rfl

@[simp] theorem total_cons (e : ℕ × List α) : total (e :: items) = e.2.length + total items := by
  simp [total]

@[simp] theorem total_append (l : List (ℕ × List α)) :
    total (items ++ l) = total items + total l := by
  simp [total]

@[simp] theorem numbered_nil : numbered ([] : List (ℕ × List α)) = [] := rfl

@[simp] theorem numbered_cons (e : ℕ × List α) :
    numbered (e :: items) = (seqAt e.1, e.2) :: numbered items := rfl

@[simp] theorem numbered_append (l : List (ℕ × List α)) :
    numbered (items ++ l) = numbered items ++ numbered l := List.map_append

theorem Apart.sublist {l : List (ℕ × List α)} (h : Apart base items) (hl : l.Sublist items) :
    Apart base l where
  ordered := h.ordered.sublist hl
  starts e he := h.starts e (hl.subset he)
  nonempty e he := h.nonempty e (hl.subset he)
  ends e he := h.ends e (hl.subset he)

theorem Apart.rest {e : ℕ × List α} (h : Apart base (e :: items)) : Apart base items :=
  h.sublist (List.sublist_cons_self e items)

theorem Apart.head_le {e : ℕ × List α} (h : Apart base (e :: items)) :
    ∀ f ∈ items, finish e ≤ f.1 := (List.pairwise_cons.mp h.ordered).1

theorem Apart.insert {lows highs : List (ℕ × List α)} {e : ℕ × List α}
    (h : Apart base (lows ++ highs)) (hlow : ∀ f ∈ lows, finish f ≤ e.1)
    (hhigh : ∀ f ∈ highs, finish e ≤ f.1) (hbase : base ≤ e.1) (hne : e.1 < finish e)
    (hend : finish e < base + 2147483648) : Apart base (lows ++ e :: highs) := by
  have hmem : ∀ f ∈ lows ++ e :: highs, f = e ∨ f ∈ lows ++ highs :=
    fun f hf => List.mem_cons.mp (List.perm_middle.mem_iff.mp hf)
  obtain ⟨h1, h2, h3⟩ := List.pairwise_append.mp h.ordered
  constructor
  · refine List.pairwise_append.mpr ⟨h1, List.pairwise_cons.mpr ⟨hhigh, h2⟩, ?_⟩
    intro f hf g hg
    rcases List.mem_cons.mp hg with rfl | hg
    · exact hlow f hf
    · exact h3 f hf g hg
  · intro f hf
    rcases hmem f hf with rfl | hf
    · exact hbase
    · exact h.starts f hf
  · intro f hf
    rcases hmem f hf with rfl | hf
    · exact hne
    · exact h.nonempty f hf
  · intro f hf
    rcases hmem f hf with rfl | hf
    · exact hend
    · exact h.ends f hf

theorem total_le {a b : ℕ} (ho : items.Pairwise fun e f => finish e ≤ f.1)
    (hs : ∀ e ∈ items, a ≤ e.1) (hf : ∀ e ∈ items, finish e ≤ b) (hab : a ≤ b) :
    a + total items ≤ b := by
  induction items generalizing a with
  | nil => simpa using hab
  | cons e rest ih =>
    obtain ⟨h1, h2⟩ := List.pairwise_cons.mp ho
    have he := hs e List.mem_cons_self
    have hfe := hf e List.mem_cons_self
    have hrest := ih h2 h1 (fun f hm => hf f (List.mem_cons_of_mem e hm)) hfe
    simp only [finish] at hrest
    rw [total_cons]
    omega

theorem Apart.total_le (h : Apart base items) : total items ≤ 2147483648 := by
  have hle : base + total items ≤ base + 2147483648 :=
    TcpRxBuffer.total_le h.ordered h.starts (fun e he => Nat.le_of_lt (h.ends e he))
      (Nat.le_add_right _ _)
  omega

theorem Tiles.finish_le {a : ℕ} (h : Tiles a items) {e : ℕ × List α} (he : e ∈ items) :
    finish e ≤ a + total items := by
  induction items generalizing a with
  | nil => cases he
  | cons f rest ih =>
    obtain ⟨hf, hrest⟩ := h
    have hfin : finish f = a + f.2.length := by simp only [finish, hf]
    rw [total_cons]
    rcases List.mem_cons.mp he with rfl | he
    · omega
    · have := ih hrest he
      omega

theorem Tiles.append {a : ℕ} {l : List (ℕ × List α)} (h : Tiles a items)
    (hl : Tiles (a + total items) l) : Tiles a (items ++ l) := by
  induction items generalizing a with
  | nil => simpa using hl
  | cons f rest ih =>
    obtain ⟨hf, hrest⟩ := h
    have hfin : finish f + total rest = a + total (f :: rest) := by
      rw [total_cons]
      simp only [finish, hf]
      omega
    exact ⟨hf, ih hrest (by rwa [hfin])⟩

theorem Tiles.covered {a p : ℕ} (h : Tiles a items) (h1 : a ≤ p) (h2 : p < a + total items) :
    ∃ e ∈ items, e.1 ≤ p ∧ p < finish e := by
  induction items generalizing a with
  | nil =>
    simp only [total_nil] at h2
    omega
  | cons f rest ih =>
    obtain ⟨hf, hrest⟩ := h
    by_cases hp : p < finish f
    · exact ⟨f, List.mem_cons_self, by omega, hp⟩
    · have hlt : p < finish f + total rest := by
        rw [total_cons] at h2
        simp only [finish, hf]
        omega
      obtain ⟨e, he, hep⟩ := ih hrest (by omega) hlt
      exact ⟨e, List.mem_cons_of_mem f he, hep⟩

theorem near_within {p q : ℕ} (h1 : base ≤ p) (h2 : p < base + 2147483648) (h3 : base ≤ q)
    (h4 : q < base + 2147483648) : Near p q := ⟨by omega, by omega⟩

section Trim

theorem trimOverlap_stop (hi : Apart base items) (ht1 : base ≤ tail)
    (ht2 : tail < base + 2147483648) (h : ∀ e ∈ items, tail < e.1) (head : ℕ) :
    trimOverlap (numbered items) head (seqAt tail) size =
      (numbered items, head, seqAt tail, size) := by
  cases items with
  | nil => rfl
  | cons e rest =>
    have he := h e List.mem_cons_self
    have hs := hi.starts e List.mem_cons_self
    have hn := hi.nonempty e List.mem_cons_self
    have hf := hi.ends e List.mem_cons_self
    have hle : ¬ seqLe (seqAt e.1) (seqAt tail) := by
      rw [seqLe_at (near_within hs (by omega) ht1 ht2)]
      omega
    simp only [numbered_cons, trimOverlap, hle, if_false]

/-- What the loop leaves: either nothing is to be stored and the map is unchanged, or the rest
of the segment lies between two neighbours of the remaining map. -/
structure Trimmed (base head tail : ℕ) (items kept : List (ℕ × List α)) (head' tail' : ℕ) :
    Prop where
  sublist : kept.Sublist items
  head_within : base ≤ head' ∧ head' < base + 2147483648
  tail_within : base ≤ tail' ∧ tail' < base + 2147483648
  outcome : (tail' ≤ head' ∧ kept = items) ∨
    (head' < tail' ∧ head ≤ head' ∧ tail' ≤ tail ∧ ∃ lows highs, kept = lows ++ highs ∧
      (∀ e ∈ lows, finish e ≤ head') ∧ ∀ e ∈ highs, tail' ≤ e.1)
  /-- A segment that starts before every entry keeps its first byte. -/
  stored : head < tail → (∀ e ∈ items, head < e.1) → head' < tail'

theorem Trimmed.skip {e : ℕ × List α} {kept : List (ℕ × List α)} {head₀ head' tail' : ℕ}
    (h : Trimmed base head₀ tail items kept head' tail') (h0 : head ≤ head₀)
    (he : e.1 ≤ head) (hf : finish e ≤ head₀) :
    Trimmed base head tail (e :: items) (e :: kept) head' tail' where
  sublist := h.sublist.cons_cons e
  head_within := h.head_within
  tail_within := h.tail_within
  outcome := by
    rcases h.outcome with ⟨h1, h2⟩ | ⟨h1, h2, h3, lows, highs, hk, h4, h5⟩
    · exact .inl ⟨h1, by rw [h2]⟩
    · refine .inr ⟨h1, by omega, h3, e :: lows, highs, by simp [hk], ?_, h5⟩
      intro f hm
      rcases List.mem_cons.mp hm with rfl | hm
      · omega
      · exact h4 f hm
  stored _ hall := absurd (hall e List.mem_cons_self) (by omega)

theorem Trimmed.drop {e : ℕ × List α} {kept : List (ℕ × List α)} {head' tail' : ℕ}
    (h : Trimmed base head tail items kept head' tail') (hlt : head' < tail') :
    Trimmed base head tail (e :: items) kept head' tail' where
  sublist := h.sublist.cons e
  head_within := h.head_within
  tail_within := h.tail_within
  outcome := by
    rcases h.outcome with ⟨h1, _⟩ | h'
    · omega
    · exact .inr h'
  stored _ _ := hlt

theorem Trimmed.ahead (ht : tail < base + 2147483648) (hh : base ≤ head) (hht : head ≤ tail)
    {tail' : ℕ} (h1 : head ≤ tail') (h2 : tail' ≤ tail) (h3 : head < tail → head < tail')
    (hall : ∀ e ∈ items, tail' ≤ e.1) : Trimmed base head tail items items head tail' where
  sublist := List.Sublist.refl items
  head_within := ⟨hh, by omega⟩
  tail_within := ⟨by omega, by omega⟩
  outcome := by
    by_cases h : head < tail'
    · exact .inr ⟨h, le_rfl, h2, [], items, rfl, by simp, hall⟩
    · exact .inl ⟨by omega, rfl⟩
  stored h _ := h3 h

/-- The entries that are not kept lie in what is stored of the segment, behind its first byte. -/
structure Replaced (head tail : ℕ) (items kept : List (ℕ × List α)) (head' tail' : ℕ) : Prop where
  first : (∀ e ∈ items, head < e.1) → head' = head
  last : ∀ x ≤ tail, (∀ e ∈ items, x ≤ e.1) → x ≤ tail'
  gone : ∀ e ∈ items, e ∉ kept → head' < e.1 ∧ finish e < tail ∧ finish e ≤ tail'

theorem Replaced.none {tail' : ℕ} (h : (∀ e ∈ items, head < e.1) → head = size)
    (ht : ∀ x ≤ tail, (∀ e ∈ items, x ≤ e.1) → x ≤ tail') :
    Replaced head tail items items size tail' :=
  ⟨fun hall => (h hall).symm, ht, fun _ he hn => absurd he hn⟩

theorem Replaced.skip {e : ℕ × List α} {kept : List (ℕ × List α)} {head₀ head' tail' : ℕ}
    (h : Replaced head₀ tail items kept head' tail') (he : e.1 ≤ head) :
    Replaced head tail (e :: items) (e :: kept) head' tail' where
  first hall := absurd (hall e List.mem_cons_self) (Nat.not_lt_of_le he)
  last x hx hall := h.last x hx fun f hf => hall f (List.mem_cons_of_mem e hf)
  gone f hf hn := by
    rw [List.mem_cons, not_or] at hn
    exact h.gone f ((List.mem_cons.mp hf).resolve_left hn.1) hn.2

theorem Replaced.drop {e : ℕ × List α} {kept : List (ℕ × List α)} {head' tail' : ℕ}
    (h : Replaced head tail items kept head' tail') (he : head < e.1) (hn : e.1 < finish e)
    (hf : finish e < tail) (hrest : ∀ f ∈ items, finish e ≤ f.1) :
    Replaced head tail (e :: items) kept head' tail' := by
  have hhead : head' = head := h.first fun f hm => by
    have := hrest f hm
    omega
  have htail : finish e ≤ tail' := h.last _ (Nat.le_of_lt hf) hrest
  refine ⟨fun _ => hhead, fun x hx hall => ?_, fun f hm hk => ?_⟩
  · exact h.last x hx fun f hm => hall f (List.mem_cons_of_mem e hm)
  · rcases List.mem_cons.mp hm with rfl | hm
    · exact ⟨by omega, hf, htail⟩
    · exact h.gone f hm hk

theorem trimOverlap_spec (hi : Apart base items) (hh : base ≤ head) (hht : head ≤ tail)
    (ht : tail < base + 2147483648) (hsize : size < 4294967296) (htot : total items ≤ size) :
    ∃ kept head' tail', Trimmed base head tail items kept head' tail' ∧
      Replaced head tail items kept head' tail' ∧
      trimOverlap (numbered items) (seqAt head) (seqAt tail) size =
        (numbered kept, seqAt head', seqAt tail', size + total kept - total items) := by
  induction items generalizing head size with
  | nil =>
    exact ⟨[], head, tail, .ahead ht hh hht hht le_rfl id (by simp),
      .none (fun _ => rfl) (fun _ hx _ => hx), by simp [trimOverlap]⟩
  | cons e rest ih =>
    have hs := hi.starts e List.mem_cons_self
    have hn := hi.nonempty e List.mem_cons_self
    have hf := hi.ends e List.mem_cons_self
    have hnext := hi.head_le
    have hstop : ∀ {t}, t < finish e → ∀ f ∈ rest, t < f.1 := fun h f hm =>
      Nat.lt_of_lt_of_le h (hnext f hm)
    have nst := seqLe_at (near_within hs (by omega) (by omega) ht : Near e.1 tail)
    have nsh := seqGt_at (near_within hs (by omega) hh (by omega) : Near e.1 head)
    have nsl := seqLe_at (near_within hs (by omega) hh (by omega) : Near e.1 head)
    have nfh := seqGt_at (near_within (by omega) hf hh (by omega) : Near (finish e) head)
    have nft := seqLt_at (near_within (by omega) hf (by omega) ht : Near (finish e) tail)
    have nge := seqGe_at (near_within (by omega) hf (by omega) ht : Near (finish e) tail)
    have hlast : seqAdd (seqAt e.1) e.2.length = seqAt (finish e) := seqAdd_at _ _
    rw [total_cons] at htot
    simp only [numbered_cons, trimOverlap, hlast, nst, nsh, nsl, nfh, nft, nge, total_cons]
    by_cases hst : e.1 ≤ tail
    · simp only [hst, if_true]
      by_cases hover : head < finish e
      · simp only [hover, if_true]
        by_cases hemb : head < e.1 ∧ finish e < tail
        · -- embedded: the entry goes, its bytes are in the segment
          have hle : e.2.length ≤ size := by omega
          have hlt : size - e.2.length < 4294967296 := by omega
          obtain ⟨kept, head', tail', hk, hrep, hr⟩ := ih hi.rest hh hht hlt (by omega)
          refine ⟨kept, head', tail', hk.drop (hk.stored (by omega) (hstop hover)),
            hrep.drop hemb.1 hn hemb.2 hnext, ?_⟩
          have hsub := hk.sublist
          simp only [hemb, and_self, if_true, sub32_of_le hsize hle, hr, Prod.mk.injEq, true_and]
          omega
        · simp only [hemb, if_false]
          by_cases hhead : e.1 ≤ head
          · by_cases htail : tail ≤ finish e
            · -- the entry covers what is left of the segment
              simp only [hhead, htail, if_true]
              rw [trimOverlap_stop hi.rest hs (by omega) (hstop (by omega))]
              refine ⟨e :: rest, finish e, e.1, ?_, ?_, ?_⟩
              · exact ⟨List.Sublist.refl _, ⟨by omega, hf⟩, ⟨hs, by omega⟩,
                  .inl ⟨by omega, rfl⟩,
                  fun _ hall => absurd (hall e List.mem_cons_self) (by omega)⟩
              · exact .none (fun hall => absurd (hall e List.mem_cons_self) (by omega))
                  (fun x _ hall => hall e List.mem_cons_self)
              · simp
            · -- the head of the segment is overlapped
              have hfin : base ≤ finish e := by omega
              obtain ⟨kept, head', tail', hk, hrep, hr⟩ :=
                ih hi.rest hfin (by omega) hsize (by omega)
              refine ⟨e :: kept, head', tail', hk.skip (by omega) hhead le_rfl, hrep.skip hhead, ?_⟩
              simp only [hhead, htail, if_true, if_false, hr, numbered_cons, total_cons,
                Prod.mk.injEq, true_and]
              omega
          · -- the tail of the segment is overlapped
            have htail : tail ≤ finish e := by omega
            simp only [hhead, htail, if_true, if_false]
            rw [trimOverlap_stop hi.rest hs (by omega) (hstop (by omega))]
            refine ⟨e :: rest, head, e.1, .ahead ht hh hht (by omega) hst (by omega) ?_,
              .none (fun _ => rfl) (fun x _ hall => hall e List.mem_cons_self), by simp⟩
            intro f hm
            rcases List.mem_cons.mp hm with rfl | hm
            · exact le_rfl
            · exact Nat.le_of_lt (hstop hn f hm)
      · obtain ⟨kept, head', tail', hk, hrep, hr⟩ := ih hi.rest hh hht hsize (by omega)
        refine ⟨e :: kept, head', tail', hk.skip le_rfl (by omega) (by omega),
          hrep.skip (by omega), ?_⟩
        simp only [hover, if_false, hr, numbered_cons, total_cons, Prod.mk.injEq, true_and]
        omega
    · refine ⟨e :: rest, head, tail, .ahead ht hh hht hht le_rfl id ?_,
        .none (fun _ => rfl) (fun _ hx _ => hx), by simp [hst]⟩
      intro f hm
      rcases List.mem_cons.mp hm with rfl | hm
      · omega
      · exact Nat.le_of_lt (hstop (by omega) f hm)

theorem trimOverlap_front (size : ℕ) (h : Apart base (front ++ items))
    (hf : ∀ e ∈ front, finish e ≤ head)
    (hh : base ≤ head) (hht : head ≤ tail) (ht : tail < base + 2147483648) :
    trimOverlap (numbered (front ++ items)) (seqAt head) (seqAt tail) size =
      (numbered front ++ (trimOverlap (numbered items) (seqAt head) (seqAt tail) size).1,
        (trimOverlap (numbered items) (seqAt head) (seqAt tail) size).2) := by
  induction front with
  | nil => rfl
  | cons e front ih =>
    have hs := h.starts e (by simp)
    have hn := h.nonempty e (by simp)
    have hend := h.ends e (by simp)
    have he := hf e List.mem_cons_self
    have hle : seqLe (seqAt e.1) (seqAt tail) := by
      rw [seqLe_at (near_within hs (by omega) (by omega) ht)]
      omega
    have hgt : ¬ seqGt (seqAt (finish e)) (seqAt head) := by
      rw [seqGt_at (near_within (by omega) hend hh (by omega))]
      omega
    have hlast : seqAdd (seqAt e.1) e.2.length = seqAt (finish e) := seqAdd_at _ _
    simp only [List.cons_append, numbered_cons, trimOverlap, hle, hgt, hlast, if_true, if_false]
    rw [ih h.rest fun f hm => hf f (List.mem_cons_of_mem e hm)]

end Trim

section Store

theorem insertData_numbered {lows highs : List (ℕ × List α)} {e : ℕ × List α}
    (h : Apart base (lows ++ e :: highs)) :
    insertData (seqAt e.1) e.2 (numbered (lows ++ highs)) = numbered (lows ++ e :: highs) := by
  induction lows with
  | nil =>
    cases highs with
    | nil => rfl
    | cons f highs =>
      have hs := h.starts f (by simp)
      have hn := h.nonempty f (by simp)
      have hf := h.ends f (by simp)
      have hlt : e.1 < f.1 :=
        Nat.lt_of_lt_of_le (h.nonempty e (by simp)) (h.head_le f (by simp))
      have hnear : Near e.1 f.1 := near_within (h.starts e (by simp)) (by omega) hs (by omega)
      simp [insertData, seqLt_at hnear, hlt]
  | cons f lows ih =>
    have hs := h.starts f (by simp)
    have hn := h.nonempty f (by simp)
    have hf := h.ends f (by simp)
    have he := h.starts e (by simp)
    have hne := h.nonempty e (by simp)
    have hend := h.ends e (by simp)
    have hlt : f.1 < e.1 := Nat.lt_of_lt_of_le hn (h.head_le e (by simp))
    have hnear : Near e.1 f.1 := near_within he (by omega) hs (by omega)
    have hnot : ¬ seqLt (seqAt e.1) (seqAt f.1) := by
      rw [seqLt_at hnear]
      omega
    have hyes : seqLt (seqAt f.1) (seqAt e.1) := (seqLt_at hnear.symm).mpr hlt
    simp only [List.cons_append, numbered_cons, insertData, hnot, hyes, if_true, if_false]
    rw [ih h.rest]

variable {next avail : ℕ} {sackList : List (ℕ × ℕ)}

def numberedBlocks (blocks : List (ℕ × ℕ)) : List (ℕ × ℕ) :=
  blocks.map fun b => (seqAt b.1, seqAt b.2)

theorem clearSackList_numbered (blocks : List (ℕ × ℕ)) (hnext : base ≤ next)
    (hlt : next < base + 2147483648) (hb : ∀ b ∈ blocks, base ≤ b.2 ∧ b.2 < base + 2147483648) :
    clearSackList (numberedBlocks blocks) (seqAt next) =
      numberedBlocks (blocks.filter fun b => next < b.2) := by
  rw [clearSackList, numberedBlocks, List.filter_map, numberedBlocks]
  congr 1
  apply List.filter_congr
  intro b hm
  obtain ⟨h1, h2⟩ := hb b hm
  rw [Function.comp_apply, decide_eq_decide, seqLe_at (near_within h1 h2 hnext hlt), Nat.not_le]

theorem advance_skip (h : Apart base (front ++ items)) (hnext : base ≤ next)
    (hlt : next < base + 2147483648) (hf : ∀ e ∈ front, e.1 < next) :
    advance (numbered (front ++ items)) (seqAt next) avail sackList =
      advance (numbered items) (seqAt next) avail sackList := by
  induction front with
  | nil => rfl
  | cons e front ih =>
    have hs := h.starts e (by simp)
    have hend := h.ends e (by simp)
    have hn := h.nonempty e (by simp)
    have he : e.1 < next := hf e List.mem_cons_self
    have hyes : seqLt (seqAt e.1) (seqAt next) :=
      (seqLt_at (near_within hs (by omega) hnext hlt)).mpr he
    simp only [List.cons_append, numbered_cons, advance, hyes, if_true]
    exact ih h.rest fun f hm => hf f (List.mem_cons_of_mem e hm)

theorem advance_spec (sackList : List (ℕ × ℕ)) (h : Apart base items) (hnext : base ≤ next)
    (hlt : next < base + 2147483648) (hall : ∀ e ∈ items, next ≤ e.1)
    (havail : avail + total items < 4294967296) :
    ∃ front back sackList', items = front ++ back ∧ Tiles next front ∧
      (∀ e ∈ back, next + total front < e.1) ∧
      advance (numbered items) (seqAt next) avail sackList =
        (seqAt (next + total front), avail + total front, sackList') ∧
      ∀ blocks, sackList = numberedBlocks blocks →
        (∀ b ∈ blocks, next < b.2 ∧ b.2 < base + 2147483648) →
        sackList' = numberedBlocks (blocks.filter fun b => next + total front < b.2) := by
  have hnone : ∀ {next : ℕ} {blocks : List (ℕ × ℕ)},
      (∀ b ∈ blocks, next < b.2 ∧ b.2 < base + 2147483648) →
      blocks.filter (fun b => next + 0 < b.2) = blocks := fun hb =>
    List.filter_eq_self.mpr fun b hm => decide_eq_true (hb b hm).1
  induction items generalizing next avail sackList with
  | nil =>
    refine ⟨[], [], sackList, rfl, trivial, by simp, rfl, fun blocks hl hb => ?_⟩
    rw [total_nil, hnone hb, hl]
  | cons e rest ih =>
    have hs := h.starts e List.mem_cons_self
    have hn := h.nonempty e List.mem_cons_self
    have hend := h.ends e List.mem_cons_self
    have he := hall e List.mem_cons_self
    have hnear : Near e.1 next := near_within hs (by omega) hnext hlt
    have hnot : ¬ seqLt (seqAt e.1) (seqAt next) := by
      rw [seqLt_at hnear]
      omega
    rw [total_cons] at havail
    by_cases hgap : next < e.1
    · refine ⟨[], e :: rest, sackList, rfl, trivial, ?_, ?_, fun blocks hl hb => ?_⟩
      · intro f hm
        rcases List.mem_cons.mp hm with rfl | hm
        · simpa using hgap
        · have := h.head_le f hm
          simp only [total_nil]
          omega
      · have hgt : seqGt (seqAt e.1) (seqAt next) := (seqGt_at hnear).mpr hgap
        simp only [numbered_cons, advance, hnot, hgt, if_true, if_false, total_nil, Nat.add_zero]
      · rw [total_nil, hnone hb, hl]
    · have hgt : ¬ seqGt (seqAt e.1) (seqAt next) := by
        rw [seqGt_at hnear]
        omega
      have hadd : add32 avail e.2.length = avail + e.2.length := add32_of_lt (by omega)
      have hfin : next + e.2.length = finish e := by
        simp only [finish]
        omega
      have hbefore : base ≤ finish e := by omega
      have hcount : avail + e.2.length + total rest < 4294967296 := by omega
      obtain ⟨front, back, sackList', hsplit, htiles, hback, hr, hsack⟩ :=
        ih (clearSackList sackList (seqAt (finish e))) h.rest hbefore hend h.head_le hcount
      refine ⟨e :: front, back, sackList', by rw [hsplit]; rfl, ⟨by omega, htiles⟩, ?_, ?_,
        fun blocks hl hb => ?_⟩
      · intro f hm
        have := hback f hm
        rw [total_cons]
        omega
      · simp only [numbered_cons, advance, hnot, hgt, if_false, seqAdd_at, hadd]
        have hfin' : e.1 + e.2.length = finish e := rfl
        rw [hfin', hr, total_cons, ← hfin]
        simp only [Nat.add_assoc]
      · have hclear := clearSackList_numbered blocks hbefore hend fun b hm => by
          obtain ⟨h1, h2⟩ := hb b hm
          exact ⟨by omega, h2⟩
        rw [hsack (blocks.filter fun b => finish e < b.2) (by rw [hl, hclear]), List.filter_filter,
          total_cons, ← Nat.add_assoc, hfin]
        · congr 1
          apply List.filter_congr
          intro b _
          simp only [Bool.and_eq_decide, decide_eq_true_eq, decide_eq_decide]
          omega
        · intro b hm
          rw [List.mem_filter, decide_eq_true_eq] at hm
          exact ⟨hm.2, (hb b hm.1).2⟩

end Store

section Extract
variable {isn : ℕ} {stream : List α}

structure Carries (isn : ℕ) (stream : List α) (e : ℕ × List α) : Prop where
  starts : isn ≤ e.1
  bytes : e.2 = (stream.drop (e.1 - isn)).take e.2.length

theorem Carries.taken {e : ℕ × List α} (h : Carries isn stream e) {n : ℕ} (hn : n ≤ e.2.length) :
    stream.take (e.1 - isn) ++ e.2.take n = stream.take (e.1 + n - isn) := by
  have hs := h.starts
  rw [h.bytes, List.take_take, Nat.min_eq_left hn, ← List.take_add,
    show e.1 - isn + n = e.1 + n - isn by omega]

theorem Carries.dropped {e : ℕ × List α} (h : Carries isn stream e) (n : ℕ) :
    Carries isn stream (e.1 + n, e.2.drop n) := by
  have hs := h.starts
  refine ⟨by simp only; omega, ?_⟩
  simp only [List.length_drop]
  conv_lhs => rw [h.bytes]
  rw [List.drop_take, List.drop_drop, show e.1 - isn + n = e.1 + n - isn by omega]

theorem Apart.move {b : ℕ} (h : Apart base items) (hb : base ≤ b) (hs : ∀ e ∈ items, b ≤ e.1) :
    Apart b items :=
  ⟨h.ordered, hs, h.nonempty, fun e he => Nat.lt_of_lt_of_le (h.ends e he) (by omega)⟩

theorem extractLoop_zero (avail : ℕ) (out : List α) :
    extractLoop items 0 size avail out = (items, size, avail, out) := by
  cases items <;> simp [extractLoop]

theorem extractLoop_out (n avail : ℕ) (out : List α) :
    extractLoop items n size avail out =
      ((extractLoop items n size avail []).1, (extractLoop items n size avail []).2.1,
        (extractLoop items n size avail []).2.2.1,
        out ++ (extractLoop items n size avail []).2.2.2) := by
  induction items generalizing n size avail out with
  | nil => simp [extractLoop]
  | cons e rest ih =>
    simp only [extractLoop]
    split_ifs with h0 h1
    · simp
    · rw [ih _ _ (out ++ e.2), ih _ _ ([] ++ e.2)]
      simp
    · simp

theorem Apart.cut {e : ℕ × List α} {n : ℕ} (h : Apart base (e :: items)) (he : e.1 = base)
    (hn : n < e.2.length) : Apart (base + n) ((e.1 + n, e.2.drop n) :: items) := by
  have hfin : finish (e.1 + n, e.2.drop n) = finish e := by
    simp only [finish, List.length_drop]
    omega
  have hend := h.ends e List.mem_cons_self
  have hrest : Apart (base + n) items := by
    apply h.rest.move (Nat.le_add_right _ _)
    intro f hf
    have := h.head_le f hf
    simp only [finish] at this
    omega
  have hlen : base + n < finish e := by
    simp only [finish]
    omega
  have hfirst : Apart (base + n) ([] ++ items) := hrest
  apply hfirst.insert (by simp)
  · intro f hf
    rw [hfin]
    exact h.head_le f hf
  · simp only
    omega
  · rw [hfin]
    simp only
    omega
  · rw [hfin]
    omega

theorem insertData_cut {e : ℕ × List α} {n : ℕ} (h : Apart base (e :: items)) (hpos : 0 < n)
    (hn : n < e.2.length) :
    (insertData (seqAt (e.1 + n)) (e.2.drop n) (numbered (e :: items))).eraseP
        (fun entry => entry.1 = seqAt e.1) =
      numbered ((e.1 + n, e.2.drop n) :: items) := by
  have hs := h.starts e List.mem_cons_self
  have hend := h.ends e List.mem_cons_self
  have hlen : e.1 + n < finish e := by
    simp only [finish]
    omega
  have hnear : Near (e.1 + n) e.1 := near_within (by omega) (by omega) hs (by omega)
  have hnot : ¬ seqLt (seqAt (e.1 + n)) (seqAt e.1) := by
    rw [seqLt_at hnear]
    omega
  have hyes : seqLt (seqAt e.1) (seqAt (e.1 + n)) := (seqLt_at hnear.symm).mpr (by omega)
  simp only [numbered_cons, insertData, hnot, hyes, if_true, if_false, decide_true,
    List.eraseP_cons_of_pos]
  cases items with
  | nil => rfl
  | cons f items =>
    have hf := h.rest.starts f List.mem_cons_self
    have hfe := h.rest.nonempty f List.mem_cons_self
    have hff := h.rest.ends f List.mem_cons_self
    have hef := h.head_le f List.mem_cons_self
    have hlt : seqLt (seqAt (e.1 + n)) (seqAt f.1) := by
      rw [seqLt_at (near_within (by omega) (by omega) hf (by omega))]
      omega
    simp only [numbered_cons, insertData, hlt, if_true]

theorem extractLoop_spec {n avail : ℕ} (h : Apart base (front ++ back))
    (htiles : Tiles base front) (hc : ∀ e ∈ front, Carries isn stream e) (hn : n ≤ total front)
    (hsize : size < 4294967296) (hsn : n ≤ size) (havail : avail < 4294967296) (han : n ≤ avail)
    (hbase : isn ≤ base) (hback : ∀ e ∈ back, base + total front < e.1) :
    ∃ front', Apart (base + n) (front' ++ back) ∧ Tiles (base + n) front' ∧
      (∀ e ∈ front', Carries isn stream e) ∧ total front' = total front - n ∧
      extractLoop (numbered (front ++ back)) n size avail (stream.take (base - isn)) =
        (numbered (front' ++ back), size - n, avail - n, stream.take (base + n - isn)) := by
  induction front generalizing base n size avail with
  | nil =>
    obtain rfl : n = 0 := Nat.le_zero.mp hn
    exact ⟨[], h, trivial, by simp, rfl, extractLoop_zero _ _⟩
  | cons e front ih =>
    obtain ⟨he, htiles⟩ := htiles
    have hce := hc e List.mem_cons_self
    have hcf : ∀ f ∈ front, Carries isn stream f := fun f hf => hc f (List.mem_cons_of_mem e hf)
    rw [total_cons] at hn
    by_cases h0 : n = 0
    · subst h0
      exact ⟨e :: front, h, ⟨he, htiles⟩, hc, rfl, extractLoop_zero _ _⟩
    by_cases hwhole : e.2.length ≤ n
    · have hfin : finish e = base + e.2.length := by
        simp only [finish, he]
      have hrest : Apart (finish e) (front ++ back) := h.rest.move (by omega) h.head_le
      rw [total_cons] at hback
      have hn' : n - e.2.length ≤ total front := by omega
      have hsize' : size - e.2.length < 4294967296 := by omega
      have havail' : avail - e.2.length < 4294967296 := by omega
      obtain ⟨front', ha, ht, hc', htot, hr⟩ :=
        ih hrest htiles hcf hn' hsize' (by omega) havail' (by omega) (by omega)
          (fun f hf => by have := hback f hf; omega)
      have hout : stream.take (base - isn) ++ e.2 = stream.take (finish e - isn) := by
        have := hce.taken le_rfl
        rwa [List.take_length, he, ← hfin] at this
      rw [show finish e + (n - e.2.length) = base + n by omega] at ha ht hr
      refine ⟨front', ha, ht, hc', by rw [total_cons, htot]; omega, ?_⟩
      simp only [List.cons_append, numbered_cons, extractLoop, h0, hwhole, if_true, if_false,
        sub32_of_le hsize (show e.2.length ≤ size by omega),
        sub32_of_le havail (show e.2.length ≤ avail by omega), hout, hr, Prod.mk.injEq, true_and,
        and_true]
      omega
    · have hlt : n < e.2.length := by omega
      have hcut := hce.taken (Nat.le_of_lt hlt)
      have ha : Apart (base + n) ((e.1 + n, e.2.drop n) :: (front ++ back)) := h.cut he hlt
      have ht : Tiles (base + n) ((e.1 + n, e.2.drop n) :: front) := by
        have hfin : finish (e.1 + n, e.2.drop n) = finish e := by
          simp only [finish, List.length_drop]
          omega
        refine ⟨by simp only; omega, ?_⟩
        rw [hfin]
        exact htiles
      refine ⟨(e.1 + n, e.2.drop n) :: front, ha, ht, ?_, ?_, ?_⟩
      · intro f hf
        rcases List.mem_cons.mp hf with rfl | hf
        · exact hce.dropped n
        · exact hcf f hf
      · simp only [total_cons, List.length_drop]
        omega
      · have hsplit : Apart base (e :: (front ++ back)) := h
        have hdata := insertData_cut hsplit (by omega) hlt
        simp only [numbered_cons] at hdata
        simp only [List.cons_append, numbered_cons, extractLoop, h0, hwhole, if_false, seqAdd_at,
          hdata, sub32_of_le hsize hsn, sub32_of_le havail han, Prod.mk.injEq, true_and]
        rw [← he, hcut]

end Extract
end NetGymSim.Internet.TcpRxBuffer

import NetGymSim.Internet.TcpTxStream

/-!
# The counters of the transmit buffer

`tally` sums the sizes of the flagged items. `Tallied` relates the sent list before and
after a search to the counters: splits and merges of items with equal flags change no sum
but that of retransmitted bytes, which `m_retrans` follows. One lemma for each operation
then says under which condition all counters stay exact.
-/

namespace NetGymSim.Internet.TcpTxBuffer
open Lib Network
variable {α : Type*} {items : List (TcpTxItem α)} {b b' : TcpTxBuffer α} {p k n seq : ℕ}

def tally (flag : TcpTxItem α → Bool) (items : List (TcpTxItem α)) : ℕ :=
  (items.map fun item => if flag item then item.size else 0).sum

section Tally
variable {flag : TcpTxItem α → Bool} {item : TcpTxItem α} {l : List (TcpTxItem α)}

@[simp] theorem tally_nil : tally flag [] = 0 := rfl

@[simp] theorem tally_cons :
    tally flag (item :: l) = (if flag item then item.size else 0) + tally flag l := by
  simp [tally]

@[simp] theorem tally_append : tally flag (items ++ l) = tally flag items + tally flag l := by
  simp [tally]

@[simp] theorem tally_reverse : tally flag items.reverse = tally flag items := by
  simp [tally, List.sum_reverse]

theorem tally_le (flag : TcpTxItem α → Bool) (items : List (TcpTxItem α)) :
    tally flag items ≤ bytes items := by
  induction items with
  | nil => simp
  | cons item rest ih =>
    rw [tally_cons, bytes_cons]
    split_ifs <;> omega

theorem tally_clear (h : ∀ item ∈ items, flag item = false) : tally flag items = 0 := by
  induction items with
  | nil => rfl
  | cons item rest ih =>
    rw [tally_cons, h item List.mem_cons_self, ih fun i hi => h i (List.mem_cons_of_mem item hi)]
    rfl

end Tally

def Exclusive (items : List (TcpTxItem α)) : Prop :=
  ∀ item ∈ items, ¬ (item.sacked = true ∧ item.lost = true)

def HeadClear (items : List (TcpTxItem α)) : Prop := ∀ item ∈ items.head?, item.sacked = false

def Clear (item : TcpTxItem α) : Prop :=
  item.lost = false ∧ item.retrans = false ∧ item.sacked = false

instance (item : TcpTxItem α) : Decidable (Clear item) :=
  inferInstanceAs (Decidable (_ ∧ _ ∧ _))

section Lists
variable {item : TcpTxItem α} {l : List (TcpTxItem α)}

@[simp] theorem Exclusive.cons_iff :
    Exclusive (item :: l) ↔ ¬ (item.sacked = true ∧ item.lost = true) ∧ Exclusive l := by
  simp [Exclusive]

@[simp] theorem Exclusive.append_iff :
    Exclusive (items ++ l) ↔ Exclusive items ∧ Exclusive l := by
  simp [Exclusive, or_imp, forall_and]

@[simp] theorem headClear_nil : HeadClear ([] : List (TcpTxItem α)) := by simp [HeadClear]

@[simp] theorem headClear_cons : HeadClear (item :: l) ↔ item.sacked = false := by
  simp [HeadClear]

end Lists

section Search

structure Tallied (items : List (TcpTxItem α)) (c : Counter) (items' : List (TcpTxItem α))
    (c' : Counter) : Prop where
  bytes : bytes items' = bytes items
  lost : tally (·.lost) items' = tally (·.lost) items
  sacked : tally (·.sacked) items' = tally (·.sacked) items
  retrans : ∀ x, x + TcpTxBuffer.bytes items < 4294967296 →
    c = .exactly (x + tally (·.retrans) items) → c' = .exactly (x + tally (·.retrans) items')
  exclusive : Exclusive items → Exclusive items'
  headClear : HeadClear items → HeadClear items'

namespace Tallied
variable {l l' l'' : List (TcpTxItem α)} {c c' c'' : Counter} {item t t1 t2 : TcpTxItem α}

theorem refl (l : List (TcpTxItem α)) (c : Counter) : Tallied l c l c :=
  ⟨rfl, rfl, rfl, fun _ _ h => h, id, id⟩

theorem trans (h : Tallied l c l' c') (h' : Tallied l' c' l'' c'') : Tallied l c l'' c'' where
  bytes := h'.bytes.trans h.bytes
  lost := h'.lost.trans h.lost
  sacked := h'.sacked.trans h.sacked
  retrans x hx hc := h'.retrans x (by rw [h.bytes]; exact hx) (h.retrans x hx hc)
  exclusive hi := h'.exclusive (h.exclusive hi)
  headClear hi := h'.headClear (h.headClear hi)

theorem cons (h : Tallied l c l' c') (item : TcpTxItem α) :
    Tallied (item :: l) c (item :: l') c' where
  bytes := by simp [h.bytes]
  lost := by simp [h.lost]
  sacked := by simp [h.sacked]
  retrans x hx hc := by
    rw [bytes_cons] at hx
    rw [tally_cons, ← Nat.add_assoc] at hc ⊢
    apply h.retrans _ _ hc
    split_ifs <;> omega
  exclusive hi := by
    simp only [Exclusive.cons_iff] at hi ⊢
    exact ⟨hi.1, h.exclusive hi.2⟩
  headClear hi := by simpa using hi

theorem split {m nodes : ℕ} (hm : m ≤ item.size) (l : List (TcpTxItem α)) (c : Counter) :
    Tallied (item :: l) c ((item.splitItems m nodes).1 :: (item.splitItems m nodes).2 :: l) c := by
  obtain ⟨h1, h2⟩ := splitItems_size item nodes hm
  have hsum : ∀ flag : TcpTxItem α → Bool, flag (item.splitItems m nodes).1 = flag item →
      flag (item.splitItems m nodes).2 = flag item →
      tally flag ((item.splitItems m nodes).1 :: (item.splitItems m nodes).2 :: l) =
        tally flag (item :: l) := by
    intro flag hf1 hf2
    simp only [tally_cons, hf1, hf2, h1, h2]
    split_ifs <;> omega
  constructor
  · simp only [bytes_cons, h1, h2]
    omega
  · exact hsum _ rfl rfl
  · exact hsum _ rfl rfl
  · intro x _ hc
    rw [hsum _ rfl rfl, hc]
  · simp only [Exclusive.cons_iff]
    intro ⟨hi, hl⟩
    exact ⟨hi, hi, hl⟩
  · simp only [headClear_cons]
    exact id

theorem merge (hl : t1.lost = t2.lost) (hs : t1.sacked = t2.sacked) (l : List (TcpTxItem α))
    (c : Counter) :
    Tallied (t1 :: t2 :: l) c ((t1.mergeItems t2 c).1 :: l) (t1.mergeItems t2 c).2 := by
  obtain ⟨hp, -⟩ := mergeItems_packet t1 t2 c
  have hsize : (t1.mergeItems t2 c).1.size = t1.size + t2.size := by simp [TcpTxItem.size, hp]
  have hlost : (t1.mergeItems t2 c).1.lost = t1.lost := by
    simp only [TcpTxItem.mergeItems]
    split_ifs <;> rfl
  have hsacked : (t1.mergeItems t2 c).1.sacked = t1.sacked := by
    simp only [TcpTxItem.mergeItems]
    split_ifs <;> rfl
  constructor
  · simp only [bytes_cons, hsize]
    omega
  · simp only [tally_cons, hsize, hlost, ← hl]
    split_ifs <;> omega
  · simp only [tally_cons, hsize, hsacked, ← hs]
    split_ifs <;> omega
  · intro x hx hc
    subst hc
    have hle := tally_le (fun i => i.retrans) l
    simp only [bytes_cons] at hx
    simp only [tally_cons, TcpTxItem.mergeItems]
    cases h1 : t1.retrans <;> cases h2 : t2.retrans <;>
      simp only [ne_eq, not_true, not_false_iff, if_true, if_false, Bool.false_eq_true,
        reduceCtorEq, Nat.zero_add]
    · rw [Counter.exactly_sub (by omega) (by omega)]
      congr 1
      omega
    · rw [Counter.exactly_sub (by omega) (by omega)]
      congr 1
      omega
    · simp only [TcpTxItem.size, List.length_append]
      congr 1
      omega
  · simp only [Exclusive.cons_iff, hlost, hsacked]
    exact fun hi => ⟨hi.1, hi.2.2⟩
  · simp only [headClear_cons, hsacked]
    exact id

theorem mark (item : TcpTxItem α) (l : List (TcpTxItem α)) (c : Counter) :
    Tallied (item :: l) c ({ item with retrans := true } :: l)
      (if item.retrans then c else c.add item.size) where
  bytes := by simp [TcpTxItem.size]
  lost := by simp [TcpTxItem.size]
  sacked := by simp [TcpTxItem.size]
  retrans x hx hc := by
    have hle := tally_le (fun i => i.retrans) l
    rw [bytes_cons] at hx
    rw [tally_cons] at hc ⊢
    simp only [if_true]
    cases hr : item.retrans
    · simp only [hr, if_false, Bool.false_eq_true, Nat.zero_add] at hc ⊢
      rw [hc, Counter.exactly_add (by omega)]
      congr 1
      simp only [TcpTxItem.size]
      omega
    · simp only [hr, if_true] at hc ⊢
      exact hc
  exclusive := by simp
  headClear := by simp

theorem append (h : Tallied l c l' c') (items : List (TcpTxItem α)) :
    Tallied (items ++ l) c (items ++ l') c' := by
  induction items with
  | nil => exact h
  | cons item rest ih => exact ih.cons item

end Tallied
/-- The bytes wanted from offset `off` of the item lie in it, or in it and a next item with the
same lost and sacked flags. -/
def Agree (off numBytes : ℕ) (item : TcpTxItem α) (after : List (TcpTxItem α)) : Prop :=
  off + numBytes ≤ item.size ∨ off = 0 ∧ ∃ next rest, after = next :: rest ∧
    item.lost = next.lost ∧ item.sacked = next.sacked ∧ numBytes ≤ item.size + next.size

theorem fitPacket_tallied {item : TcpTxItem α} {after : List (TcpTxItem α)} (nodes : ℕ)
    (c : Counter) (ha : Agree 0 n item after) (hsmall : bytes (item :: after) < 2147483648) :
    ∃ f, fitPacket n (seqAt p) nodes item after c = some f ∧ f.before = [] ∧
      Tallied (item :: after) c (f.item :: f.after) f.retrans := by
  rw [bytes_cons] at hsmall
  have hwithin : ∀ (item : TcpTxItem α) (after : List (TcpTxItem α)) (c : Counter),
      n ≤ item.size → item.size < 2147483648 →
      ∃ f, fitPacket n (seqAt p) nodes item after c = some f ∧ f.before = [] ∧
        Tallied (item :: after) c (f.item :: f.after) f.retrans := by
    intro item after c hle hlt
    rw [fitPacket_eq nodes item after c hle hlt]
    split_ifs
    · exact ⟨_, rfl, rfl, .refl _ _⟩
    · exact ⟨_, rfl, rfl, .split hle _ _⟩
  by_cases hle : n ≤ item.size
  · exact hwithin item after c hle (by omega)
  · obtain ⟨-, next, rest, rfl, hl, hs, hsum⟩ := ha.resolve_left (by omega)
    rw [bytes_cons] at hsmall
    rw [fitPacket_merge nodes item next rest c (by omega) (by omega)]
    have hsize : (item.mergeItems next c).1.size = item.size + next.size := by
      simp [TcpTxItem.size, mergeItems_packet]
    obtain ⟨f, h1, h2, h3⟩ := hwithin (item.mergeItems next c).1 rest (item.mergeItems next c).2
      (by omega) (by omega)
    exact ⟨f, h1, h2, (Tallied.merge hl hs rest c).trans h3⟩

theorem getPacketFromList_tallied {before after : List (TcpTxItem α)} {item : TcpTxItem α}
    {off : ℕ} (nodes : ℕ) (c : Counter) (ha : Agree off n item after) (hoff : off < item.size)
    (hfull : Full before) (hsmall : bytes (before ++ item :: after) < 2147483648) :
    ∃ f, getPacketFromList n (seqAt (p + (bytes before + off))) (before ++ item :: after)
        (seqAt p) c nodes = some f ∧
      Tallied (before ++ item :: after) c (f.before ++ f.item :: f.after) f.retrans := by
  induction before generalizing p with
  | nil =>
    rw [List.nil_append, bytes_cons] at hsmall
    have hend : Near (p + off) (p + item.size) := ⟨by omega, by omega⟩
    have hstart : Near (p + off) p := ⟨by omega, by omega⟩
    simp only [List.nil_append, bytes_nil, Nat.zero_add, getPacketFromList, seqAdd_at,
      seqLt_at hend, seqGt_at hstart, seqAt_inj hstart]
    rw [if_pos (by omega)]
    by_cases h0 : off = 0
    · subst h0
      obtain ⟨f, h1, h2, h3⟩ := fitPacket_tallied (p := p) nodes c ha (by rw [bytes_cons]; omega)
      rw [if_pos (Nat.add_zero p), Nat.add_zero, h1]
      exact ⟨f, rfl, by rw [h2]; exact h3⟩
    · have hword : (seqSub (seqAt (p + off)) (seqAt p) % 4294967296).toNat = off :=
        seqSub_word p (by omega)
      have hle : off + n ≤ item.size := ha.resolve_right fun h => h0 h.1
      obtain ⟨-, h2⟩ := splitItems_size item nodes (Nat.le_of_lt hoff)
      rw [if_neg (by omega), if_pos (by omega), hword]
      obtain ⟨f, h1, hb, h3⟩ := fitPacket_tallied (p := p + off) (nodes + 1) c
        (show Agree 0 n (item.splitItems off nodes).2 after from .inl (by omega))
        (by rw [bytes_cons]; omega)
      rw [h1]
      refine ⟨_, rfl, ?_⟩
      simp only [hb]
      exact (Tallied.split (Nat.le_of_lt hoff) after c).trans (h3.cons _)
  | cons first rest ih =>
    have hpos := hfull.size_pos List.mem_cons_self
    rw [Full.cons_iff] at hfull
    rw [List.cons_append, bytes_cons] at hsmall
    have hb : bytes (rest ++ item :: after) = bytes rest + (item.size + bytes after) := by simp
    have hend : Near (p + (first.size + bytes rest + off)) (p + first.size) := ⟨by omega, by omega⟩
    simp only [List.cons_append, bytes_cons, getPacketFromList, seqAdd_at, seqLt_at hend]
    rw [if_neg (by omega)]
    obtain ⟨f, h1, h2⟩ := ih (p := p + first.size) hfull.2 (by omega)
    rw [show p + (first.size + bytes rest + off) = p + first.size + (bytes rest + off) by omega, h1]
    exact ⟨_, rfl, h2.cons first⟩

end Search

structure Counted (b : TcpTxBuffer α) : Prop where
  sacked : b.sackedOut = .exactly (tally (·.sacked) b.sentList)
  lost : b.lostOut = .exactly (tally (·.lost) b.sentList)
  retrans : b.retrans = .exactly (tally (·.retrans) b.sentList)
  exclusive : Exclusive b.sentList
  appClear : ∀ item ∈ b.appList, Clear item

section Copy

theorem Counted.of_tallied (h : Counted b) (hb : bytes b.sentList < 4294967296)
    (ht : Tallied b.sentList b.retrans b'.sentList b'.retrans) (hl : b'.lostOut = b.lostOut)
    (hs : b'.sackedOut = b.sackedOut) (ha : b'.appList = b.appList) : Counted b' where
  sacked := by rw [hs, h.sacked, ht.sacked]
  lost := by rw [hl, h.lost, ht.lost]
  retrans := by simpa using ht.retrans 0 (by omega) (by rw [h.retrans, Nat.zero_add])
  exclusive := ht.exclusive h.exclusive
  appClear := by rw [ha]; exact h.appClear

theorem exists_at (hfull : Full items) (hk : k < bytes items) :
    ∃ before item after off, items = before ++ item :: after ∧ k = bytes before + off ∧
      off < item.size := by
  induction items generalizing k with
  | nil => simp at hk
  | cons item rest ih =>
    rw [Full.cons_iff] at hfull
    rw [bytes_cons] at hk
    by_cases hin : k < item.size
    · exact ⟨[], item, rest, k, rfl, by simp, hin⟩
    · obtain ⟨before, i, after, off, hsplit, hoff, hlt⟩ := ih hfull.2 (k := k - item.size)
        (by omega)
      refine ⟨item :: before, i, after, off, by rw [hsplit]; rfl, ?_, hlt⟩
      rw [bytes_cons]
      omega

theorem mergeLimit_agree {before after : List (TcpTxItem α)} {item : TcpTxItem α}
    (hp : Placed p (before ++ item :: after)) (hfull : Full (before ++ item :: after))
    (hsmall : bytes (before ++ item :: after) < 2147483648) (hs : item.sacked = false) (n : ℕ) :
    Agree 0 (mergeLimit (seqAt (p + bytes before)) (before ++ item :: after) n) item after := by
  induction before generalizing p with
  | nil =>
    rw [List.nil_append] at hp hsmall
    have hstart : item.startSeq = seqAt (p + 0) := hp.1
    simp only [List.nil_append, bytes_nil, mergeLimit, hstart, if_true]
    cases after with
    | nil => exact .inl (by simp only; omega)
    | cons next rest =>
      simp only [bytes_cons] at hsmall
      simp only [add32_of_lt (show item.size + next.size < 4294967296 by omega)]
      split_ifs with hc
      · have hnext : next.sacked = false := by simpa using hc.1
        exact .inr ⟨rfl, next, rest, rfl, hc.2, by rw [hs, hnext], by omega⟩
      · exact .inl (by omega)
  | cons first rest ih =>
    have hpos := hfull.size_pos List.mem_cons_self
    rw [List.cons_append, bytes_cons] at hsmall
    rw [List.cons_append, Full.cons_iff] at hfull
    have hb : bytes (rest ++ item :: after) = bytes rest + (item.size + bytes after) := by simp
    have hnear : Near p (p + (first.size + bytes rest)) := ⟨by omega, by omega⟩
    have hne : ¬ first.startSeq = seqAt (p + (first.size + bytes rest)) := by
      rw [hp.1, seqAt_inj hnear]
      omega
    simp only [List.cons_append, mergeLimit, bytes_cons, hne, if_false]
    rw [← Nat.add_assoc]
    exact ih hp.2 hfull.2 (by omega)

theorem Counted.transmitted (hl : Laid p b) (hc : Counted b) (hn : 0 < n)
    (hle : k + n ≤ bytes b.sentList)
    (hd : n = 1 ∨ ∃ item ∈ b.sentList, item.startSeq = seqAt (p + k) ∧ item.sacked = false)
    {r : TcpTxItem α} (hg : b.getTransmittedSegment n (seqAt (p + k)) = some (b', r)) :
    Counted b' ∧ (HeadClear b.sentList → HeadClear b'.sentList) := by
  have hsmall := hl.small
  have hfound : ∃ before item after off, b.sentList = before ++ item :: after ∧
      k = bytes before + off ∧ off < item.size ∧
      Agree off (mergeLimit (seqAt (p + k)) b.sentList n) item after := by
    rcases hd with rfl | ⟨item, hm, hstart, hs⟩
    · obtain ⟨before, item, after, off, hsplit, hoff, hlt⟩ :=
        exists_at hl.fullSent (show k < bytes b.sentList by omega)
      obtain ⟨h1, h2⟩ := mergeLimit_spec (seqAt (p + k)) hn hl.fullSent (by omega)
      exact ⟨before, item, after, off, hsplit, hoff, hlt, .inl (by omega)⟩
    · obtain ⟨before, after, hsplit⟩ := List.append_of_mem hm
      have hp := hl.placed
      have hf := hl.fullSent
      have hb : bytes b.sentList = bytes before + (item.size + bytes after) := by
        rw [hsplit]
        simp
      have hpos := hf.size_pos hm
      rw [hsplit] at hp hf
      obtain ⟨-, hat, -⟩ := placed_append.mp hp
      have hnear : Near (p + bytes before) (p + k) := ⟨by omega, by omega⟩
      rw [hat, seqAt_inj hnear] at hstart
      have hk : k = bytes before := by omega
      have hagree := mergeLimit_agree hp hf (by rw [← hsplit]; omega) hs n
      rw [← hsplit, ← hk] at hagree
      exact ⟨before, item, after, 0, hsplit, hk, hpos, hagree⟩
  obtain ⟨before, item, after, off, hsplit, rfl, hoff, hagree⟩ := hfound
  have hf := hl.fullSent
  have hb : bytes (before ++ item :: after) < 2147483648 := by
    rw [← hsplit]
    omega
  rw [hsplit, Full.append_iff] at hf
  obtain ⟨f, h1, h2⟩ := getPacketFromList_tallied (p := p) b.nodes b.retrans hagree hoff hf.1 hb
  rw [← hsplit] at h1 h2
  rw [getTransmittedSegment, hl.first, h1, Option.map_some] at hg
  cases hg
  have ht := h2.trans ((Tallied.mark f.item f.after f.retrans).append f.before)
  exact ⟨hc.of_tallied (by omega) ht rfl rfl rfl, ht.headClear⟩

theorem fitPacket_clear {item : TcpTxItem α} {after : List (TcpTxItem α)} {nodes : ℕ}
    {c : Counter} {f : Found α} (hi : Clear item) (ha : ∀ i ∈ after, Clear i)
    (hf : fitPacket n seq nodes item after c = some f) :
    Clear f.item ∧ (∀ i ∈ f.before, Clear i) ∧ (∀ i ∈ f.after, Clear i) ∧ f.retrans = c := by
  have hcase : ∀ (item : TcpTxItem α) (l : List (TcpTxItem α)), Clear item →
      (∀ i ∈ l, Clear i) → ∀ i ∈ (item.splitItems n nodes).2 :: l, Clear i := by
    intro item l h1 h2 i hm
    rcases List.mem_cons.mp hm with rfl | hm
    · exact h1
    · exact h2 i hm
  induction after generalizing item with
  | nil =>
    rw [fitPacket.eq_def] at hf
    dsimp only at hf
    split_ifs at hf
    · cases hf
      exact ⟨hi, by simp, ha, rfl⟩
    · cases hf
      exact ⟨hi, by simp, hcase _ _ hi ha, rfl⟩
    · cases hf
      exact ⟨hi, by simp, ha, rfl⟩
  | cons next rest ih =>
    rw [fitPacket.eq_def] at hf
    dsimp only at hf
    split_ifs at hf
    · cases hf
      exact ⟨hi, by simp, ha, rfl⟩
    · cases hf
      exact ⟨hi, by simp, hcase _ _ hi ha, rfl⟩
    · have hn := ha next List.mem_cons_self
      have heq : item.mergeItems next c =
          ({ item with packet := item.packet ++ next.packet }, c) := by
        simp [TcpTxItem.mergeItems, hi.2.1, hn.2.1]
      simp only [heq] at hf
      exact ih (show Clear { item with packet := item.packet ++ next.packet } from hi)
        (fun i hm => ha i (List.mem_cons_of_mem next hm)) hf

theorem getPacketFromList_clear {begin nodes : ℕ} {c : Counter} {f : Found α}
    (ha : ∀ i ∈ items, Clear i) (hf : getPacketFromList n seq items begin c nodes = some f) :
    Clear f.item ∧ (∀ i ∈ f.before, Clear i) ∧ (∀ i ∈ f.after, Clear i) ∧ f.retrans = c := by
  induction items generalizing begin f with
  | nil => cases hf
  | cons item rest ih =>
    have hi := ha item List.mem_cons_self
    have hr : ∀ i ∈ rest, Clear i := fun i hm => ha i (List.mem_cons_of_mem item hm)
    rw [getPacketFromList] at hf
    split_ifs at hf
    · exact fitPacket_clear hi hr hf
    · obtain ⟨g, hg, rfl⟩ := Option.map_eq_some_iff.mp hf
      obtain ⟨h1, h2, h3, h4⟩ :=
        fitPacket_clear (show Clear (item.splitItems _ nodes).2 from hi) hr hg
      refine ⟨h1, ?_, h3, h4⟩
      intro i hm
      rcases List.mem_cons.mp hm with rfl | hm
      · exact hi
      · exact h2 i hm
    · obtain ⟨g, hg, rfl⟩ := Option.map_eq_some_iff.mp hf
      obtain ⟨h1, h2, h3, h4⟩ := ih hr hg
      refine ⟨h1, ?_, h3, h4⟩
      intro i hm
      rcases List.mem_cons.mp hm with rfl | hm
      · exact hi
      · exact h2 i hm

theorem Counted.new (hc : Counted b) {r : TcpTxItem α}
    (hg : b.getNewSegment n = some (b', r)) :
    Counted b' ∧ (HeadClear b.sentList → HeadClear b'.sentList) := by
  obtain ⟨f, hf, heq⟩ := Option.map_eq_some_iff.mp hg
  obtain ⟨hi, h1, h2, h3⟩ := getPacketFromList_clear hc.appClear hf
  cases heq
  obtain ⟨hi1, hi2, hi3⟩ := hi
  refine ⟨⟨?_, ?_, ?_, ?_, ?_⟩, ?_⟩
  · simp [hc.sacked, hi3]
  · simp [hc.lost, hi1]
  · simp [hc.retrans, h3, hi2]
  · simp only [Exclusive.append_iff, Exclusive.cons_iff]
    exact ⟨hc.exclusive, by simp [hi1], by simp [Exclusive]⟩
  · intro i hm
    rcases List.mem_append.mp hm with hm | hm
    · exact h1 i hm
    · exact h2 i hm
  · intro hh
    cases hs : b.sentList with
    | nil => simpa using hi3
    | cons head rest =>
      rw [hs] at hh
      simpa using hh

end Copy
end NetGymSim.Internet.TcpTxBuffer

import NetGymSim.Internet.TcpRxSack

/-!
# The SACK list over whole runs

What the bytes are has no part in where they are stored, so a run with any bytes is one of the
receiver of a single stream. A block never leaves the bytes behind a gap, and the list stays a
list of separate blocks as long as no segment replaces entries that a block reports:
`UpdateSackList` does not look for blocks inside the new one.
-/

namespace NetGymSim.Internet.TcpRxBuffer
open Lib Network

/-! ### The bytes -/

section Shape
variable {α β : Type*} (f : α → β)

def mapItems (items : List (ℕ × List α)) : List (ℕ × List β) :=
  items.map fun e => (e.1, e.2.map f)

def mapBytes (b : TcpRxBuffer α) : TcpRxBuffer β :=
  { nextRxSeq := b.nextRxSeq, gotFin := b.gotFin, finSeq := b.finSeq, size := b.size,
    maxBuffer := b.maxBuffer, availBytes := b.availBytes, data := mapItems f b.data,
    sackList := b.sackList }

theorem mapItems_cons (e : ℕ × List α) (items : List (ℕ × List α)) :
    mapItems f (e :: items) = (e.1, e.2.map f) :: mapItems f items := rfl

theorem insertData_map (key : ℕ) (p : List α) (items : List (ℕ × List α)) :
    insertData key (p.map f) (mapItems f items) = mapItems f (insertData key p items) := by
  induction items with
  | nil => rfl
  | cons e items ih =>
    simp only [mapItems_cons, insertData]
    split_ifs
    · rfl
    · rw [ih, mapItems_cons]
    · rfl

theorem trimOverlap_map (items : List (ℕ × List α)) (head tail size : ℕ) :
    trimOverlap (mapItems f items) head tail size =
      (mapItems f (trimOverlap items head tail size).1, (trimOverlap items head tail size).2) := by
  induction items generalizing head tail size with
  | nil => rfl
  | cons e items ih =>
    simp only [mapItems_cons, trimOverlap, List.length_map]
    split_ifs
    all_goals simp only [ih, mapItems_cons]

theorem advance_map (items : List (ℕ × List α)) (next avail : ℕ) (sackList : List (ℕ × ℕ)) :
    advance (mapItems f items) next avail sackList = advance items next avail sackList := by
  induction items generalizing next avail sackList with
  | nil => rfl
  | cons e items ih =>
    simp only [mapItems_cons, advance, List.length_map]
    split_ifs
    all_goals first | rfl | exact ih _ _ _

theorem trimWindow_map (b : TcpRxBuffer α) (seq len : ℕ) :
    (b.mapBytes f).trimWindow seq len = b.trimWindow seq len := by
  simp only [trimWindow, mapBytes]
  cases b.data <;> rfl

theorem storedRange_map (b : TcpRxBuffer α) (seq len : ℕ) :
    (b.mapBytes f).storedRange seq len = b.storedRange seq len := by
  simp only [storedRange, trimWindow_map]
  simp only [mapBytes, trimOverlap_map]

theorem store_map (b : TcpRxBuffer α) (head tail : ℕ) (p : List α) :
    (b.mapBytes f).store head tail (p.map f) = (b.store head tail p).mapBytes f := by
  simp only [store, mapBytes, insertData_map, advance_map, List.length_map]
  rfl

theorem add_map (b : TcpRxBuffer α) (p : List α) (seq : ℕ) :
    ((b.mapBytes f).add (p.map f) seq).1 = (b.add p seq).1.mapBytes f := by
  simp only [add, trimWindow_map, List.length_map]
  simp only [mapBytes, trimOverlap_map]
  split_ifs
  · rfl
  · rw [← List.map_drop, ← List.map_take]
    exact store_map f { b with
      data := (trimOverlap b.data (b.trimWindow seq p.length).1 (b.trimWindow seq p.length).2
        b.size).1
      size := (trimOverlap b.data (b.trimWindow seq p.length).1 (b.trimWindow seq p.length).2
        b.size).2.2.2 } _ _ _

theorem extractLoop_map (items : List (ℕ × List α)) (n size avail : ℕ) (out : List α) :
    extractLoop (mapItems f items) n size avail (out.map f) =
      (mapItems f (extractLoop items n size avail out).1,
        (extractLoop items n size avail out).2.1, (extractLoop items n size avail out).2.2.1,
        (extractLoop items n size avail out).2.2.2.map f) := by
  induction items generalizing n size avail out with
  | nil => rfl
  | cons e items ih =>
    simp only [mapItems_cons, extractLoop, List.length_map]
    split_ifs
    · rfl
    · rw [← List.map_append, ih]
    · have herase : ∀ l : List (ℕ × List α), (mapItems f l).eraseP (fun x => x.1 = e.1) =
          mapItems f (l.eraseP fun x => x.1 = e.1) := fun l => List.eraseP_map
      rw [← mapItems_cons, ← List.map_drop, insertData_map, herase, List.map_append,
        List.map_take]

theorem extract_map (b : TcpRxBuffer α) (maxSize : ℕ) :
    (b.mapBytes f).extract maxSize =
      ((b.extract maxSize).1.mapBytes f, (b.extract maxSize).2.map f) := by
  have h := extractLoop_map f b.data (min maxSize b.availBytes) b.size b.availBytes []
  simp only [extract, mapBytes, List.map_nil] at h ⊢
  rw [h]

end Shape

/-! ### Runs -/

/-- `Add` of any bytes from an offset on, `Extract`, and the FIN behind the last byte. -/
inductive SackEvent (α : Type*)
  | add (offset : ℕ) (p : List α)
  | extract (maxSize : ℕ)
  | fin

/-- `recent` is the segment that was stored last behind a gap. -/
structure SackRun (α : Type*) where
  run : Run α
  recent : Option (ℕ × ℕ) := none

section Machine
variable {α : Type*} (isn length : ℕ)

def Run.block (s : Run α) (b : ℕ × ℕ) : ℕ × ℕ := (s.position isn b.1, s.position isn b.2)

def Run.stored (s : Run α) (recent : Option (ℕ × ℕ)) (seq len : ℕ) : Option (ℕ × ℕ) :=
  match s.buf.storedRange seq len with
  | none => recent
  | some r => if seqGt r.1 s.buf.nextRxSeq then some (s.block isn r) else recent

namespace SackRun

def enabled (s : SackRun α) : SackEvent α → Prop
  | .add offset p => offset + p.length ≤ length ∧
      s.run.InReach isn (isn + offset) (isn + offset + p.length)
  | .extract _ => True
  | .fin => Near (s.run.position isn s.run.buf.nextRxSeq) (isn + length)

instance (s : SackRun α) : (e : SackEvent α) → Decidable (s.enabled isn length e)
  | .add _ _ => inferInstanceAs (Decidable (_ ∧ _))
  | .extract _ => inferInstanceAs (Decidable True)
  | .fin => inferInstanceAs (Decidable (_ ∧ _))

def next (s : SackRun α) : SackEvent α → SackRun α
  | .add offset p =>
      { run := { s.run with buf := (s.run.buf.add p (seqAt (isn + offset))).1 }
        recent := s.run.stored isn s.recent (seqAt (isn + offset)) p.length }
  | .extract maxSize =>
      { s with
        run := { buf := (s.run.buf.extract maxSize).1
                 out := s.run.out ++ (s.run.buf.extract maxSize).2 } }
  | .fin => { s with run := { s.run with buf := s.run.buf.setFinSequence (seqAt (isn + length)) } }

end SackRun

def sackReceiver : Machine (SackRun α) (SackEvent α) where
  enabled s e := s.enabled isn length e
  next s e := s.next isn length e

instance (s : SackRun α) (e : SackEvent α) : Decidable ((sackReceiver isn length).enabled s e) :=
  inferInstanceAs (Decidable (s.enabled isn length e))

def sackStart (maxBuffer : ℕ) : SackRun α := { run := start isn maxBuffer }

structure Reports (s : SackRun α) : Prop where
  separate : s.run.buf.sackList.Pairwise fun b c =>
    Separate (s.run.block isn b) (s.run.block isn c)
  above : ∀ b ∈ s.run.buf.sackList,
    s.run.position isn s.run.buf.nextRxSeq < (s.run.block isn b).1 ∧ Proper (s.run.block isn b)
  held : ∀ b ∈ s.run.buf.sackList, ∀ p, (s.run.block isn b).1 ≤ p → p < (s.run.block isn b).2 →
    s.run.Stored isn p
  atMost : s.run.buf.sackList.length ≤ 4
  recent : ∀ r ∈ s.recent, s.run.position isn s.run.buf.nextRxSeq < r.1 →
    ∃ b ∈ s.run.buf.sackList.head?, (s.run.block isn b).1 ≤ r.1 ∧ r.2 ≤ (s.run.block isn b).2

/-- A stored entry that a segment replaces: it ends before the segment does, and a byte of the
segment before it is missing. -/
def Run.Replaces (s : Run α) (first last : ℕ) (f : ℕ × List α) : Prop :=
  s.position isn f.1 + f.2.length < s.windowEnd isn last ∧
    ∃ k < last - first, s.position isn s.buf.nextRxSeq ≤ first + k ∧
      first + k < s.position isn f.1 ∧
      ∀ e ∈ s.buf.data, Clear (first + k, first + k + 1)
        (s.position isn e.1, s.position isn e.1 + e.2.length)

/-- A segment behind a gap replaces no entry that has bytes in a block. -/
def Run.Harmless (s : Run α) (first last : ℕ) : Prop :=
  s.position isn s.buf.nextRxSeq < first →
    ∀ f ∈ s.buf.data, s.Replaces isn first last f → ∀ b ∈ s.buf.sackList,
      Clear (s.block isn b) (s.position isn f.1, s.position isn f.1 + f.2.length)

def SackRun.Harmless (s : SackRun α) : SackEvent α → Prop
  | .add offset p => s.run.Harmless isn (isn + offset) (isn + offset + p.length)
  | .extract _ => True
  | .fin => True

instance (s : Run α) (first last : ℕ) (f : ℕ × List α) :
    Decidable (s.Replaces isn first last f) :=
  inferInstanceAs (Decidable (_ ∧ _))

instance (s : Run α) (first last : ℕ) : Decidable (s.Harmless isn first last) :=
  inferInstanceAs (Decidable (_ → _))

instance (s : SackRun α) : (e : SackEvent α) → Decidable (s.Harmless isn e)
  | .add offset p =>
      inferInstanceAs (Decidable (s.run.Harmless isn (isn + offset) (isn + offset + p.length)))
  | .extract _ => inferInstanceAs (Decidable True)
  | .fin => inferInstanceAs (Decidable True)

end Machine

/-! ### The invariant -/

section Invariant
variable {α : Type*} {isn : ℕ} {stream : List α} {s : Run α} {front back : List (ℕ × List α)}
  {blocks : List (ℕ × ℕ)} {recent : Option (ℕ × ℕ)} {m : ℕ}

/-- Separate blocks of bytes behind the gap at `m`; the first holds the segment stored last. -/
structure Sacked (m : ℕ) (back : List (ℕ × List α)) (recent : Option (ℕ × ℕ))
    (blocks : List (ℕ × ℕ)) : Prop where
  separate : blocks.Pairwise Separate
  above : ∀ b ∈ blocks, m < b.1
  proper : ∀ b ∈ blocks, Proper b
  held : ∀ b ∈ blocks, ∀ p, b.1 ≤ p → p < b.2 → ∃ e ∈ back, e.1 ≤ p ∧ p < finish e
  atMost : blocks.length ≤ 4
  segment : ∀ r ∈ recent, Proper r
  recent : ∀ r ∈ recent, m < r.1 → ∃ b ∈ blocks.head?, b.1 ≤ r.1 ∧ r.2 ≤ b.2

theorem Sacked.start (m : ℕ) (back : List (ℕ × List α)) : Sacked m back none [] :=
  ⟨List.Pairwise.nil, nofun, nofun, nofun, Nat.zero_le _, nofun, nofun⟩

theorem Sacked.within (hs : Sacked (s.base isn + total front) back recent blocks)
    (h : Holds isn stream s front back) {b : ℕ × ℕ} (hb : b ∈ blocks) : Within (s.base isn) b := by
  have habove := hs.above b hb
  have hproper : b.1 < b.2 := hs.proper b hb
  obtain ⟨e, he, h1, h2⟩ := hs.held b hb (b.2 - 1) (by omega) (by omega)
  have hend := h.apart.ends e (List.mem_append_right front he)
  exact ⟨⟨by omega, by omega⟩, by omega, by omega⟩

theorem Sacked.block (hs : Sacked (s.base isn + total front) back recent blocks)
    (h : Holds isn stream s front back) {b : ℕ × ℕ} (hb : b ∈ blocks) :
    s.block isn (numberedBlock b) = b := by
  obtain ⟨⟨h1, h2⟩, h3, h4⟩ := hs.within h hb
  have hfirst : s.position isn (seqAt b.1) = b.1 := Holds.position_at h1 (by omega)
  have hlast : s.position isn (seqAt b.2) = b.2 := Holds.position_at h3 (by omega)
  rw [Run.block, numberedBlock, hfirst, hlast]

/-- The first missing byte is in no block: a block that is not behind it lies before it. -/
theorem Sacked.filter (hs : blocks.Pairwise Separate) (hp : ∀ b ∈ blocks, Proper b)
    (h : Holds isn stream s front back) (hlen : blocks.length ≤ 4) (hseg : ∀ r ∈ recent, Proper r)
    (hheld : ∀ b ∈ blocks, ∀ p, b.1 ≤ p → p < b.2 → ∃ e ∈ front ++ back, e.1 ≤ p ∧ p < finish e)
    (hrecent : ∀ r ∈ recent, s.base isn + total front < r.1 →
      ∃ b ∈ blocks.head?, b.1 ≤ r.1 ∧ r.2 ≤ b.2) :
    Sacked (s.base isn + total front) back recent
      (blocks.filter fun b => s.base isn + total front < b.2) := by
  have hsub := List.filter_sublist (l := blocks) (p := fun b => s.base isn + total front < b.2)
  have hmissing : ∀ e ∈ front ++ back, e.1 ≤ s.base isn + total front →
      finish e ≤ s.base isn + total front := by
    intro e he hle
    rcases List.mem_append.mp he with he | he
    · exact h.front_le he
    · have := h.beyond e he
      omega
  have habove : ∀ b ∈ blocks, s.base isn + total front < b.2 → s.base isn + total front < b.1 := by
    intro b hb hlt
    by_contra hle
    obtain ⟨e, he, h1, h2⟩ := hheld b hb (s.base isn + total front) (by omega) hlt
    have := hmissing e he h1
    omega
  have hmem : ∀ b ∈ blocks.filter (fun b => s.base isn + total front < b.2),
      b ∈ blocks ∧ s.base isn + total front < b.2 := by
    intro b hb
    rwa [List.mem_filter, decide_eq_true_eq] at hb
  refine ⟨hs.sublist hsub, fun b hb => ?_, fun b hb => hp b (hsub.subset hb),
    fun b hb p h1 h2 => ?_, hsub.length_le.trans hlen, hseg, fun r hr hlt => ?_⟩
  · exact habove b (hmem b hb).1 (hmem b hb).2
  · obtain ⟨hb1, hb2⟩ := hmem b hb
    have hlow := habove b hb1 hb2
    obtain ⟨e, he, h3, h4⟩ := hheld b hb1 p h1 h2
    rcases List.mem_append.mp he with he | he
    · have := h.front_le he
      omega
    · exact ⟨e, he, h3, h4⟩
  · obtain ⟨b, hb, h1, h2⟩ := hrecent r hr hlt
    have hpr : r.1 < r.2 := hseg r hr
    cases blocks with
    | nil => cases hb
    | cons c rest =>
      obtain rfl : c = b := Option.some.inj hb
      refine ⟨c, ?_, h1, h2⟩
      rw [List.filter_cons_of_pos (by simp only [decide_eq_true_eq]; omega)]
      rfl

theorem Sacked.reports {t : SackRun α} (h : Holds isn stream t.run front back)
    (hs : Sacked (t.run.base isn + total front) back t.recent blocks)
    (hl : t.run.buf.sackList = numberedBlocks blocks) : Reports isn t := by
  have hnone : ∀ b ∈ blocks,
      finished isn stream t.run.buf (t.run.base isn + total front) = 0 := by
    intro b hb
    by_contra hne
    have hend := Holds.finished_eq hne
    have hproper : b.1 < b.2 := hs.proper b hb
    obtain ⟨e, he, h1, h2⟩ := hs.held b hb b.1 (Nat.le_refl _) hproper
    have := h.within e (List.mem_append_right front he)
    have := hs.above b hb
    omega
  have hle : t.run.base isn + total front ≤ t.run.position isn t.run.buf.nextRxSeq := by
    rw [h.position_next]
    exact Nat.le_add_right _ _
  refine ⟨?_, ?_, ?_, ?_, ?_⟩
  · rw [hl, numberedBlocks, List.pairwise_map]
    apply hs.separate.imp_of_mem
    intro b c hb hc hsep
    have h1 := hs.block h hb
    have h2 := hs.block h hc
    unfold numberedBlock at h1 h2
    rw [h1, h2]
    exact hsep
  · intro b hb
    rw [hl, numberedBlocks] at hb
    obtain ⟨c, hc, rfl⟩ := List.mem_map.mp hb
    have h1 := hs.block h hc
    unfold numberedBlock at h1
    rw [h1, h.position_next, hnone c hc]
    exact ⟨hs.above c hc, hs.proper c hc⟩
  · intro b hb p
    rw [hl, numberedBlocks] at hb
    obtain ⟨c, hc, rfl⟩ := List.mem_map.mp hb
    have h1 := hs.block h hc
    unfold numberedBlock at h1
    rw [h1, h.stored_iff]
    intro h2 h3
    obtain ⟨e, he, h4⟩ := hs.held c hc p h2 h3
    exact ⟨e, List.mem_append_right front he, h4⟩
  · rw [hl, numberedBlocks, List.length_map]
    exact hs.atMost
  · intro r hr hlt
    obtain ⟨b, hb, h1, h2⟩ := hs.recent r hr (by omega)
    have hmem : b ∈ blocks := List.mem_of_mem_head? hb
    refine ⟨numberedBlock b, ?_, ?_⟩
    · rw [hl, numberedBlocks, List.head?_map, Option.mem_def.mp hb]
      rfl
    · rw [hs.block h hmem]
      exact ⟨h1, h2⟩

theorem windowEnd_le (isn : ℕ) (s : Run α) (last : ℕ) : s.windowEnd isn last ≤ last := by
  unfold Run.windowEnd
  cases s.buf.data.head? with
  | none => exact Nat.le_refl _
  | some e => exact Nat.min_le_left _ _

section Add
variable {first last : ℕ} {e : ℕ × List α} {lows highs : List (ℕ × List α)}

theorem Stores.missing (hst : Stores isn stream s front back first last e lows highs)
    (h : Holds isn stream s front back) : ∀ f ∈ front ++ back, finish f ≤ e.1 ∨ e.1 < f.1 := by
  intro f hf
  have hbehind := hst.behind
  have hne := hst.nonempty
  rcases List.mem_append.mp hf with hf | hf
  · exact .inl ((h.front_le hf).trans hbehind)
  · by_cases hk : f ∈ lows ++ highs
    · rcases List.mem_append.mp hk with hk | hk
      · exact .inl (hst.low f hk)
      · have := hst.high f hk
        exact .inr (by omega)
    · exact .inr (hst.gone f hf hk).1

theorem Stores.replaces (hst : Stores isn stream s front back first last e lows highs)
    (h : Holds isn stream s front back) {f : ℕ × List α} (hf : f ∈ back) (hk : f ∉ lows ++ highs) :
    s.Replaces isn first last (seqAt f.1, f.2) := by
  obtain ⟨g1, g2, -⟩ := hst.gone f hf hk
  have hmem := List.mem_append_right front hf
  have hne := h.apart.nonempty f hmem
  have hcut := windowEnd_le isn s last
  have hfirst := hst.first_le
  have hbehind := hst.behind
  have hplace : first + (e.1 - first) = e.1 := by omega
  rw [Run.Replaces, h.position_mem hmem]
  refine ⟨g2, e.1 - first, by omega, ?_, by omega, fun x hx => ?_⟩
  · rw [h.position_next, hst.expected, hplace]
    exact hbehind
  · rw [h.data, numbered] at hx
    obtain ⟨g, hg, rfl⟩ := List.mem_map.mp hx
    have hclear := hst.missing h g hg
    rw [h.position_mem hg, hplace]
    unfold Clear
    unfold finish at hclear
    dsimp only
    omega

theorem Stores.clear (hst : Stores isn stream s front back first last e lows highs)
    (h : Holds isn stream s front back)
    (hs : Sacked (s.base isn + total front) back recent blocks)
    (hl : s.buf.sackList = numberedBlocks blocks) (hharm : s.Harmless isn first last)
    (hgap : s.base isn + total front < e.1) : ∀ b ∈ blocks, Clear (e.1, finish e) b := by
  intro b hb
  by_contra hover
  have hproper : b.1 < b.2 := hs.proper b hb
  have hne := hst.nonempty
  unfold Clear at hover
  dsimp only at hover
  obtain ⟨f, hf, h1, h2⟩ := hs.held b hb (max e.1 b.1) (by omega) (by omega)
  have hk : f ∉ lows ++ highs := by
    intro hk
    rcases List.mem_append.mp hk with hk | hk
    · have := hst.low f hk
      omega
    · have := hst.high f hk
      omega
  have hmem := List.mem_append_right front hf
  have hfirst : s.position isn s.buf.nextRxSeq < first := by
    rw [h.position_next, hst.expected]
    by_contra hle
    have := hst.start (by omega)
    omega
  have hdata : (seqAt f.1, f.2) ∈ s.buf.data := by
    rw [h.data, numbered]
    exact List.mem_map_of_mem hmem
  have hin : numberedBlock b ∈ s.buf.sackList := by
    rw [hl]
    exact List.mem_map_of_mem hb
  have hclear := hharm hfirst _ hdata (hst.replaces h hf hk) _ hin
  rw [hs.block h hb, h.position_mem hmem] at hclear
  unfold Clear at hclear
  unfold finish at h2
  dsimp only at hclear
  omega

theorem Stores.holds (hst : Stores isn stream s front back first last e lows highs)
    {front₂ back₂ : List (ℕ × List α)} (hsplit : lows ++ e :: highs = front₂ ++ back₂) {p : ℕ}
    (hp : e.1 ≤ p ∧ p < finish e ∨ ∃ f ∈ back, f.1 ≤ p ∧ p < finish f) :
    ∃ f ∈ front ++ front₂ ++ back₂, f.1 ≤ p ∧ p < finish f := by
  rw [List.append_assoc, ← hsplit]
  rcases hp with hp | ⟨f, hf, hp⟩
  · exact ⟨e, List.mem_append_right _ (List.mem_append_right _ List.mem_cons_self), hp⟩
  · by_cases hk : f ∈ lows ++ highs
    · refine ⟨f, List.mem_append_right _ ?_, hp⟩
      rcases List.mem_append.mp hk with hk | hk
      · exact List.mem_append_left _ hk
      · exact List.mem_append_right _ (List.mem_cons_of_mem e hk)
    · obtain ⟨g1, -, g3⟩ := hst.gone f hf hk
      exact ⟨e, List.mem_append_right _ (List.mem_append_right _ List.mem_cons_self),
        by omega, by omega⟩

end Add

theorem Sacked.add (hs : Sacked (s.base isn + total front) back recent blocks)
    (h : Holds isn stream s front back) (hl : s.buf.sackList = numberedBlocks blocks)
    {offset len : ℕ} (he : s.enabled isn stream (.add offset len))
    (hharm : s.Harmless isn (isn + offset) (isn + offset + len)) :
    ∃ front' back' blocks', Holds isn stream (s.next isn stream (.add offset len)) front' back' ∧
      (s.next isn stream (.add offset len)).buf.sackList = numberedBlocks blocks' ∧
      Sacked ((s.next isn stream (.add offset len)).base isn + total front') back'
        (s.stored isn recent (seqAt (isn + offset)) len) blocks' := by
  rcases h.add_cases he with ⟨heq, hnone⟩ | ⟨e, lows, highs, size, hrange, hst, hsize, heq⟩
  · rw [heq, Run.stored, hnone]
    exact ⟨front, back, blocks, h, hl, hs⟩
  · obtain ⟨front₂, back₂, h', hsplit, hsack⟩ := h.store hst.expected (seqAt (finish e))
      hst.kept hst.low hst.high hst.behind hst.nonempty hst.within hst.length hst.carries hsize
    have hbehind := hst.behind
    have hne := hst.nonempty
    have hlt := hst.within
    have hnext : s.buf.nextRxSeq = seqAt (s.base isn + total front) := by
      rw [h.next, hst.expected, Nat.add_zero]
    have hgap : seqGt (seqAt e.1) s.buf.nextRxSeq ↔ s.base isn + total front < e.1 := by
      rw [hnext, seqGt_at (near_within (by omega) (by omega) (Nat.le_add_right _ _) (by omega))]
    have hgrow : total front ≤ total (front ++ front₂) := by
      rw [total_append]
      exact Nat.le_add_right _ _
    have hbase : Run.base isn (s.next isn stream (.add offset len)) = s.base isn := by
      rw [heq]
      rfl
    rw [hbase, Run.stored, hrange, heq]
    dsimp only
    have hwithin : ∀ b ∈ blocks, Within (s.base isn) b := fun b hb => hs.within h hb
    by_cases hbeh : s.base isn + total front < e.1
    · have hseg : Within (s.base isn) (e.1, finish e) := ⟨⟨by omega, by omega⟩, by omega, hlt⟩
      obtain ⟨b₁, rest, hnew, hb₁, ⟨hholds1, hholds2⟩, hsub, hpair, hfour, hcovers⟩ :=
        updateSackList_spec hne hs.proper hs.separate (hst.clear h hs hl hharm hbeh)
      have hblock : s.block isn (seqAt e.1, seqAt (finish e)) = (e.1, finish e) := by
        have h1 : s.position isn (seqAt e.1) = e.1 := Holds.position_at (by omega) (by omega)
        have h2 : s.position isn (seqAt (finish e)) = finish e :=
          Holds.position_at (by omega) (by omega)
        rw [Run.block, h1, h2]
      have hproper : ∀ b ∈ b₁ :: rest, Proper b := by
        intro b hb
        rcases List.mem_cons.mp hb with rfl | hb
        · exact hb₁
        · exact hs.proper b (hsub.subset hb)
      have hcover : ∀ b ∈ b₁ :: rest, ∀ p, b.1 ≤ p → p < b.2 →
          e.1 ≤ p ∧ p < finish e ∨ ∃ f ∈ back, f.1 ≤ p ∧ p < finish f := by
        intro b hb p h1 h2
        have hold : ∀ c ∈ blocks, c.1 ≤ p ∧ p < c.2 →
            e.1 ≤ p ∧ p < finish e ∨ ∃ f ∈ back, f.1 ≤ p ∧ p < finish f :=
          fun c hc hp => .inr (hs.held c hc p hp.1 hp.2)
        rcases List.mem_cons.mp hb with rfl | hb
        · rcases hcovers p h1 h2 with hp | ⟨c, hc, hp⟩
          · exact .inl hp
          · exact hold c hc hp
        · exact hold b (hsub.subset hb) ⟨h1, h2⟩
      have hends : ∀ b ∈ b₁ :: rest,
          s.base isn + total front < b.2 ∧ b.2 < s.base isn + 2147483648 := by
        intro b hb
        have hp : b.1 < b.2 := hproper b hb
        rcases hcover b hb (b.2 - 1) (by omega) (by omega) with hin | ⟨f, hf, h1, h2⟩
        · omega
        · have hend := h.apart.ends f (List.mem_append_right front hf)
          have hafter := h.beyond f hf
          omega
      have hlist := hsack (b₁ :: rest) (by
        rw [if_pos (hgap.mpr hbeh), hl, updateSackList_numbered hseg hwithin, hnew]) hends
      rw [if_pos (hgap.mpr hbeh), hblock]
      have hsegment : ∀ r ∈ some (e.1, finish e), Proper r := by
        intro r hr
        cases hr
        exact hne
      have hhead : ∀ r ∈ some (e.1, finish e), s.base isn + total (front ++ front₂) < r.1 →
          ∃ b ∈ (b₁ :: rest).head?, b.1 ≤ r.1 ∧ r.2 ≤ b.2 := by
        intro r hr _
        cases hr
        exact ⟨b₁, rfl, hholds1, hholds2⟩
      have hkept := Sacked.filter hpair hproper h' (hfour hs.atMost) hsegment
        (fun b hb p h1 h2 => hst.holds hsplit (hcover b hb p h1 h2)) hhead
      exact ⟨front ++ front₂, back₂, _, h', hlist, hkept⟩
    · have hlist := hsack blocks (by rw [if_neg (hgap.not.mpr hbeh), hl]) fun b hb => by
        have h1 := hs.above b hb
        have h2 : b.1 < b.2 := hs.proper b hb
        exact ⟨by omega, (hwithin b hb).2.2⟩
      rw [if_neg (hgap.not.mpr hbeh)]
      have hhead : ∀ r ∈ recent, s.base isn + total (front ++ front₂) < r.1 →
          ∃ b ∈ blocks.head?, b.1 ≤ r.1 ∧ r.2 ≤ b.2 := by
        intro r hr hlt'
        exact hs.recent r hr (by omega)
      have hkept := Sacked.filter hs.separate hs.proper h' hs.atMost hs.segment
        (fun b hb p h1 h2 => hst.holds hsplit (.inr (hs.held b hb p h1 h2))) hhead
      exact ⟨front ++ front₂, back₂, _, h', hlist, hkept⟩

end Invariant

/-! ### Runs with any bytes -/

section Runs
variable {α : Type*} {isn length : ℕ} {s : Run α}

def Run.shape (s : Run α) : Run Unit :=
  ⟨s.buf.mapBytes fun _ => (), s.out.map fun _ => ()⟩

def SackEvent.shape : SackEvent α → Event
  | .add offset p => .add offset p.length
  | .extract maxSize => .extract maxSize
  | .fin => .fin

theorem position_shape (s : Run α) (seq : ℕ) : s.shape.position isn seq = s.position isn seq := by
  simp only [Run.position, Run.base, Run.shape, List.length_map]

theorem block_shape (s : Run α) (b : ℕ × ℕ) : s.shape.block isn b = s.block isn b := by
  simp only [Run.block, position_shape]

theorem mem_shape {f : ℕ × List Unit} :
    f ∈ s.shape.buf.data ↔ ∃ g ∈ s.buf.data, f = (g.1, g.2.map fun _ => ()) := by
  rw [Run.shape, mapBytes, mapItems, List.mem_map]
  exact exists_congr fun g => and_congr_right fun _ => eq_comm

theorem stored_shape (p : ℕ) : s.shape.Stored isn p ↔ s.Stored isn p := by
  simp only [Run.Stored, mem_shape, position_shape]
  constructor
  · intro h
    obtain ⟨_, ⟨g, hg, rfl⟩, h1, h2⟩ := h
    rw [List.length_map] at h2
    exact ⟨g, hg, h1, h2⟩
  · intro h
    obtain ⟨g, hg, h1, h2⟩ := h
    refine ⟨_, ⟨g, hg, rfl⟩, h1, ?_⟩
    rwa [List.length_map]

theorem inReach_shape {head tail : ℕ} (h : s.InReach isn head tail) :
    s.shape.InReach isn head tail := by
  obtain ⟨h1, h2, h3, h4⟩ := h
  refine ⟨?_, ?_, h3, fun e he => ?_⟩
  · rw [position_shape]
    exact h1
  · rw [position_shape]
    exact h2
  · simp only [Run.shape, mapBytes, mapItems, List.head?_map, Option.mem_def,
      Option.map_eq_some_iff] at he
    obtain ⟨g, hg, rfl⟩ := he
    dsimp only
    rw [position_shape, position_shape]
    exact h4 g hg

theorem windowEnd_shape (last : ℕ) : s.shape.windowEnd isn last = s.windowEnd isn last := by
  simp only [Run.windowEnd, position_shape]
  simp only [Run.shape, mapBytes, mapItems, List.head?_map]
  cases s.buf.data.head? <;> rfl

theorem harmless_shape {first last : ℕ} (h : s.Harmless isn first last) :
    s.shape.Harmless isn first last := by
  intro hlt f hf hrep b hb
  obtain ⟨g, hg, rfl⟩ := mem_shape.mp hf
  obtain ⟨h1, k, hk, h2, h3, h4⟩ := hrep
  rw [position_shape] at hlt h1 h2 h3
  rw [windowEnd_shape, List.length_map] at h1
  rw [block_shape, position_shape, List.length_map]
  refine h hlt g hg ⟨h1, k, hk, h2, h3, fun e he => ?_⟩ b hb
  have hclear := h4 _ (mem_shape.mpr ⟨e, he, rfl⟩)
  rwa [position_shape, List.length_map] at hclear

theorem reports_shape {s : SackRun α} (h : Reports isn ⟨s.run.shape, s.recent⟩) :
    Reports isn s := by
  obtain ⟨h1, h2, h3, h4, h5⟩ := h
  simp only [block_shape, position_shape, stored_shape] at h1 h2 h3 h5
  exact ⟨h1, h2, h3, h4, h5⟩

theorem next_shape {t : SackRun α} {e : SackEvent α} (he : t.enabled isn length e) :
    (t.next isn length e).run.shape =
      t.run.shape.next isn (List.replicate length ()) e.shape := by
  cases e with
  | add offset p =>
    have hbytes : ((List.replicate length ()).drop offset).take p.length = p.map fun _ => () := by
      have hlen := he.1
      rw [List.drop_replicate, List.take_replicate, List.map_const', Nat.min_eq_left (by omega)]
    simp only [SackRun.next, SackEvent.shape, Run.next, hbytes]
    simp only [Run.shape, add_map]
  | extract maxSize =>
    simp only [SackRun.next, SackEvent.shape, Run.next]
    simp only [Run.shape, extract_map, List.map_append]
  | fin =>
    simp only [SackRun.next, SackEvent.shape, Run.next, List.length_replicate]
    rfl

theorem enabled_shape {t : SackRun α} {e : SackEvent α} (he : t.enabled isn length e) :
    t.run.shape.enabled isn (List.replicate length ()) e.shape := by
  cases e with
  | add offset p =>
    refine ⟨?_, inReach_shape he.2⟩
    rw [List.length_replicate]
    exact he.1
  | extract maxSize => trivial
  | fin =>
    show Near _ _
    rw [position_shape, List.length_replicate]
    exact he

def Tracked (isn length : ℕ) (t : SackRun α) : Prop :=
  ∃ front back blocks, Holds isn (List.replicate length ()) t.run.shape front back ∧
    t.run.shape.buf.sackList = numberedBlocks blocks ∧
    Sacked (t.run.shape.base isn + total front) back t.recent blocks

theorem Tracked.next {t : SackRun α} (ht : Tracked isn length t) {e : SackEvent α}
    (he : t.enabled isn length e) (hharm : t.Harmless isn e) :
    Tracked isn length (t.next isn length e) := by
  obtain ⟨front, back, blocks, h, hl, hs⟩ := ht
  have hrun := next_shape he
  have hen := enabled_shape he
  cases e with
  | add offset p =>
    obtain ⟨front', back', blocks', h', hl', hs'⟩ := hs.add h hl hen (harmless_shape hharm)
    have hrecent : (t.next isn length (.add offset p)).recent =
        t.run.shape.stored isn t.recent (seqAt (isn + offset)) p.length := by
      simp only [Run.stored, block_shape]
      simp only [Run.shape, storedRange_map]
      rfl
    unfold Tracked
    rw [hrun, hrecent]
    exact ⟨front', back', blocks', h', hl', hs'⟩
  | extract maxSize =>
    obtain ⟨front', h', hm⟩ := h.extract maxSize
    unfold Tracked
    rw [hrun]
    refine ⟨front', back, blocks, h', hl, ?_⟩
    rw [SackEvent.shape, hm]
    exact hs
  | fin =>
    unfold Tracked
    rw [hrun]
    exact ⟨front, back, blocks, h.setFin hen, hl, hs⟩

theorem sack_list_reports (isn length maxBuffer : ℕ) {es : List (SackEvent α)} {t : SackRun α}
    (h : ((sackReceiver isn length).restrict (SackRun.Harmless isn)).Reaches
      (sackStart isn maxBuffer) es t) : Reports isn t := by
  have h0 : Tracked isn length (sackStart isn maxBuffer : SackRun α) :=
    ⟨[], [], [], .start isn _ maxBuffer, rfl, .start _ _⟩
  have ht : Tracked isn length t := by
    apply Machine.Reaches.invariant (P := Tracked isn length) h0 _ h
    intro t e ht he
    exact ht.next he.1 he.2
  obtain ⟨front, back, blocks, hh, hl, hs⟩ := ht
  exact reports_shape (Sacked.reports hh hs hl)

end Runs

/-- Segments across the wrap of the sequence numbers: two that are merged by a third, one that
comes last but below them, and one that fills the first gap and replaces an entry. -/
theorem sack_list_reports_across_wrap :
    Reports 4294967290 (((sackReceiver 4294967290 40).restrict
      (SackRun.Harmless 4294967290)).exec (sackStart 4294967290 100)
      [.add 10 [1, 2], .add 15 [3, 4, 5], .add 12 [6, 7, 8], .add 4 [9, 9], .fin,
        .add 30 [1], .add 0 [8, 8, 8, 8, 8, 8, 8], .extract 5]) :=
  sack_list_reports 4294967290 40 100 (Machine.Permits.reaches (by decide +kernel))

/-- The block of the entry that the second segment replaces stays in the list. -/
theorem replaced_block_stays :
    ¬ ∀ es t, (sackReceiver 1 40).Reaches (sackStart 1 100 : SackRun ℕ) es t → Reports 1 t := by
  intro h
  have hrun : (sackReceiver 1 40).Reaches (sackStart 1 100 : SackRun ℕ)
      [.add 9 (List.replicate 10 0), .add 4 (List.replicate 25 0)] _ :=
    Machine.Permits.reaches (by decide +kernel)
  have := (h _ _ hrun).separate
  revert this
  decide +kernel

end NetGymSim.Internet.TcpRxBuffer

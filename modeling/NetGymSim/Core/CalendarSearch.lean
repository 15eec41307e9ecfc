import NetGymSim.Core.CalendarScheduler

/-!
# The walk over the buckets finds the earliest event

`Filed` says where every event stands, `Cursor` that the cursor is in the year of
`lastPrio` and no event is before it. The walk visits the buckets in the order of
their slots from the cursor on. An event below the top of its bucket is then the
earliest of all; when a whole round finds none, the smallest front is. The top may
wrap past 2^64, but only in buckets that are empty.
-/

namespace NetGymSim.Core
open NetGymSim.Lib
namespace Calendar

structure Filed (cal : Calendar) : Prop where
  buckets_pos : 1 ≤ cal.nBuckets
  width_pos : 1 ≤ cal.width
  width_lt : cal.width < 18446744073709551616
  filed : ∀ i, ∀ e ∈ cal.buckets i, cal.hash e.key.ts = i ∧ e.key.ts < 9223372036854775808
  sorted : ∀ i, (cal.buckets i).Pairwise (Before cal.reverse)

structure Cursor (cal : Calendar) : Prop where
  prio_lt : cal.lastPrio < 9223372036854775808
  bucket : cal.lastBucket = cal.hash cal.lastPrio
  top : cal.bucketTop = (cal.lastPrio / cal.width + 1) * cal.width
  ahead : ∀ e ∈ cal.contents, cal.lastPrio ≤ e.key.ts

/-! ### Buckets -/

theorem before_rank {reverse : Bool} {a b : Event} :
    Before reverse a b ↔ if reverse then b.rank < a.rank else a.rank < b.rank := by
  unfold Before order
  cases reverse
  · exact EventKey.lt_iff a b
  · exact EventKey.lt_iff b a

theorem before_trans {reverse : Bool} (a b c : Event) (h1 : Before reverse a b)
    (h2 : Before reverse b c) : Before reverse a c := by
  rw [before_rank] at *
  cases reverse
  · exact h1.trans h2
  · exact h2.trans h1

theorem rank_ne {a b : Event} (h : a.key.uid ≠ b.key.uid) : a.rank ≠ b.rank := fun he =>
  h (congrArg (fun p => (ofLex p).2) he)

theorem before_of_not {reverse : Bool} {a b : Event} (hu : a.key.uid ≠ b.key.uid)
    (h : ¬ Before reverse a b) : Before reverse b a := by
  rw [before_rank] at *
  cases reverse
  · exact lt_of_le_of_ne (not_lt.mp h) (rank_ne hu.symm)
  · exact lt_of_le_of_ne (not_lt.mp h) (rank_ne hu)

section Bucket
variable {reverse : Bool} {bucket : List Event} {e : Event}

theorem nextEvent_eq_none : nextEvent reverse bucket = none ↔ bucket = [] := by
  cases reverse <;> simp [nextEvent]

theorem nextEvent_perm (h : nextEvent reverse bucket = some e) :
    bucket.Perm (e :: popEvent reverse bucket) := by
  cases reverse with
  | false =>
    cases bucket with
    | nil => cases h
    | cons a bucket =>
      obtain rfl : a = e := Option.some.inj h
      exact List.Perm.refl _
  | true =>
    have hl : bucket.getLast? = some e := h
    have hne : bucket ≠ [] := by
      rintro rfl
      cases hl
    have hsplit := List.dropLast_append_getLast hne
    rw [List.getLast?_eq_some_getLast hne] at hl
    rw [Option.some.inj hl] at hsplit
    show bucket.Perm (e :: bucket.dropLast)
    conv_lhs => rw [← hsplit]
    exact List.perm_append_singleton e bucket.dropLast

theorem nextEvent_mem (h : nextEvent reverse bucket = some e) : e ∈ bucket :=
  (nextEvent_perm h).mem_iff.mpr List.mem_cons_self

theorem popEvent_sublist : (popEvent reverse bucket).Sublist bucket := by
  cases reverse
  · exact List.tail_sublist bucket
  · exact List.dropLast_sublist bucket

theorem nextEvent_le (hs : bucket.Pairwise (Before reverse)) (h : nextEvent reverse bucket = some e)
    {x : Event} (hx : x ∈ bucket) : e.rank ≤ x.rank := by
  cases reverse with
  | false =>
    cases bucket with
    | nil => cases hx
    | cons a bucket =>
      obtain rfl : a = e := Option.some.inj h
      rcases List.mem_cons.mp hx with rfl | hx
      · exact le_rfl
      · exact (before_rank.mp ((List.pairwise_cons.mp hs).1 x hx)).le
  | true =>
    have hne : bucket ≠ [] := List.ne_nil_of_mem hx
    have hl : bucket.getLast? = some e := h
    have hsplit := List.dropLast_append_getLast hne
    rw [List.getLast?_eq_some_getLast hne] at hl
    rw [Option.some.inj hl] at hsplit
    rw [← hsplit] at hs hx
    rcases List.mem_append.mp hx with hx | hx
    · exact (before_rank.mp ((List.pairwise_append.mp hs).2.2 x hx e (by simp))).le
    · rw [List.mem_singleton.mp hx]

end Bucket

variable {cal : Calendar}

theorem Filed.hash_lt (h : Filed cal) (ts : ℕ) : cal.hash ts < cal.nBuckets :=
  Nat.mod_lt _ h.buckets_pos

theorem Filed.mem_contents (h : Filed cal) {e : Event} :
    e ∈ cal.contents ↔ e ∈ cal.buckets (cal.hash e.key.ts) := by
  unfold contents
  rw [List.mem_flatMap]
  constructor
  · rintro ⟨i, _, hi⟩
    rwa [(h.filed i e hi).1]
  · intro he
    exact ⟨_, List.mem_range.mpr (h.hash_lt _), he⟩

theorem Filed.ts_lt (h : Filed cal) {e : Event} (he : e ∈ cal.contents) :
    e.key.ts < 9223372036854775808 := (h.filed _ e (h.mem_contents.mp he)).2

theorem Filed.top_lt (h : Filed cal) {slot ts : ℕ} (hts : ts < 9223372036854775808)
    (hs : slot ≤ ts / cal.width) : (slot + 1) * cal.width < 18446744073709551616 := by
  have h1 := Nat.mul_le_mul_right cal.width hs
  have h2 := Nat.div_mul_le_self ts cal.width
  rw [Nat.add_mul, Nat.one_mul]
  by_cases hw : cal.width ≤ 9223372036854775808
  · omega
  · have h0 : ts / cal.width = 0 := Nat.div_eq_of_lt (by omega)
    obtain rfl : slot = 0 := by omega
    have := h.width_lt
    omega

/-! ### The walk -/

def base (cal : Calendar) : ℕ := cal.lastPrio / cal.width

def bucketAt (cal : Calendar) (j : ℕ) : List Event := cal.buckets ((cal.base + j) % cal.nBuckets)

theorem Filed.slot_of_mem (h : Filed cal) (hc : Cursor cal) {j : ℕ} (hj : j < cal.nBuckets)
    {e : Event} (he : e ∈ cal.bucketAt j) :
    e.key.ts / cal.width = cal.base + j ∨ cal.base + j + cal.nBuckets ≤ e.key.ts / cal.width := by
  obtain ⟨hh, _⟩ := h.filed _ e he
  have hmem : e ∈ cal.contents := h.mem_contents.mpr (by rw [hh]; exact he)
  exact slot_offset (Nat.div_le_div_right (hc.ahead e hmem)) hj hh

theorem Filed.mem_bucketAt (h : Filed cal) (hc : Cursor cal) {e : Event} (he : e ∈ cal.contents) :
    ∃ j < cal.nBuckets, e ∈ cal.bucketAt j := by
  have hb : cal.base ≤ e.key.ts / cal.width := Nat.div_le_div_right (hc.ahead e he)
  refine ⟨(e.key.ts / cal.width - cal.base) % cal.nBuckets, Nat.mod_lt _ h.buckets_pos, ?_⟩
  have hm := h.mem_contents.mp he
  unfold bucketAt
  rw [Nat.add_mod_mod, Nat.add_sub_cancel' hb]
  exact hm

/-- The events of the first `j` buckets of the round are all a later year's, and the minimum
of their fronts is known. -/
structure Passed (cal : Calendar) (j : ℕ) (s : Search) : Prop where
  late : ∀ j' < j, ∀ e ∈ cal.bucketAt j', cal.base + j' + 1 ≤ e.key.ts / cal.width
  least : (∀ j' < j, cal.bucketAt j' = []) ∧ s.minEvent.key.ts = 18446744073709551615 ∨
    ∃ b, s.minBucket = some b ∧ nextEvent cal.reverse (cal.buckets b) = some s.minEvent ∧
      ∀ j' < j, ∀ e ∈ cal.bucketAt j', s.minEvent.rank ≤ e.rank

structure At (cal : Calendar) (j : ℕ) (s : Search) : Prop where
  i : s.i = (cal.base + j) % cal.nBuckets
  top : s.bucketTop = ((cal.base + j + 1) * cal.width) % 18446744073709551616
  found : s.found = none
  passed : Passed cal j s

def Finds (cal : Calendar) (s : Search) : Prop :=
  (∃ next, s.found = some next ∧ nextEvent cal.reverse (cal.buckets s.i) = some next ∧
      s.i = cal.hash next.key.ts ∧ s.bucketTop = (next.key.ts / cal.width + 1) * cal.width ∧
      Earliest next cal.contents) ∨
    (s.found = none ∧ ∃ b, s.minBucket = some b ∧
      nextEvent cal.reverse (cal.buckets b) = some s.minEvent ∧ Earliest s.minEvent cal.contents)

theorem At.top_eq {j : ℕ} {s : Search} (h : Filed cal) (hc : Cursor cal) (hs : At cal j s)
    (hj : j < cal.nBuckets) {e : Event} (he : e ∈ cal.bucketAt j) :
    s.bucketTop = (cal.base + j + 1) * cal.width := by
  have hslot := h.slot_of_mem hc hj he
  rw [hs.top]
  exact Nat.mod_eq_of_lt (h.top_lt (h.filed _ e he).2 (by omega))

theorem At.earliest {j : ℕ} {s : Search} (h : Filed cal) (hc : Cursor cal) (hs : At cal j s)
    (hj : j < cal.nBuckets) {next : Event}
    (hnext : nextEvent cal.reverse (cal.bucketAt j) = some next)
    (hlt : next.key.ts < s.bucketTop) :
    next.key.ts / cal.width = cal.base + j ∧ Earliest next cal.contents := by
  have hmem := nextEvent_mem hnext
  rw [hs.top_eq h hc hj hmem, ← Nat.div_lt_iff_lt_mul h.width_pos] at hlt
  have hslot := h.slot_of_mem hc hj hmem
  have hbase : next.key.ts / cal.width = cal.base + j := by omega
  refine ⟨hbase, h.mem_contents.mpr (by rw [(h.filed _ next hmem).1]; exact hmem), ?_⟩
  intro x hx
  rw [EventKey.not_lt_iff]
  obtain ⟨j', hj', hxj⟩ := h.mem_bucketAt hc hx
  by_cases he : j' = j
  · subst he
    exact nextEvent_le (h.sorted _) hnext hxj
  · have hxs := h.slot_of_mem hc hj' hxj
    have hlater : cal.base + j < x.key.ts / cal.width := by
      rcases Nat.lt_or_gt_of_ne he with hlt' | hgt
      · have := hs.passed.late j' hlt' x hxj
        omega
      · omega
    -- a later slot means a later timestamp
    have hts : next.key.ts < x.key.ts := by
      by_contra hle
      have := Nat.div_le_div_right (c := cal.width) (Nat.le_of_not_lt hle)
      omega
    exact le_of_lt (Prod.Lex.toLex_lt_toLex.mpr (.inl hts))

theorem At.visit {j : ℕ} {s : Search} (h : Filed cal) (hc : Cursor cal) (hs : At cal j s)
    (hj : j < cal.nBuckets) :
    (∃ next, nextEvent cal.reverse (cal.bucketAt j) = some next ∧ next.key.ts < s.bucketTop ∧
        cal.searchTurn s = .done { s with found := some next }) ∨
      ∃ t, cal.searchTurn s = cal.searchAdvance t ∧ t.i = s.i ∧ t.bucketTop = s.bucketTop ∧
        t.found = none ∧ Passed cal (j + 1) t := by
  have hb : cal.buckets s.i = cal.bucketAt j := by rw [hs.i]; rfl
  unfold searchTurn
  rw [hb]
  have hpassed := hs.passed
  have last : ∀ {p : ℕ → Prop}, (∀ j' < j, p j') → p j → ∀ j' < j + 1, p j' := by
    intro p h1 h2 j' hj'
    rcases Nat.lt_succ_iff_lt_or_eq.mp hj' with hlt | rfl
    · exact h1 j' hlt
    · exact h2
  cases hn : nextEvent cal.reverse (cal.bucketAt j) with
  | none =>
    have hnil := nextEvent_eq_none.mp hn
    refine .inr ⟨s, rfl, rfl, rfl, hs.found, ?_, ?_⟩
    · exact last hpassed.late (by rw [hnil]; simp)
    · rcases hpassed.least with ⟨h1, h2⟩ | ⟨b, h1, h2, h3⟩
      · exact .inl ⟨last h1 hnil, h2⟩
      · exact .inr ⟨b, h1, h2, last h3 (by rw [hnil]; simp)⟩
  | some next =>
    have hmem := nextEvent_mem hn
    dsimp only
    by_cases hlt : next.key.ts < s.bucketTop
    · rw [if_pos hlt]
      exact .inl ⟨next, rfl, hlt, rfl⟩
    rw [if_neg hlt]
    rw [hs.top_eq h hc hj hmem, ← Nat.div_lt_iff_lt_mul h.width_pos] at hlt
    have hlate : ∀ e ∈ cal.bucketAt j, cal.base + j + 1 ≤ e.key.ts / cal.width := by
      intro e he
      have hle := nextEvent_le (h.sorted _) hn he
      have hts : next.key.ts ≤ e.key.ts := by
        rcases Prod.Lex.toLex_le_toLex.mp hle with hl | hl
        · exact hl.le
        · exact hl.1.le
      have := Nat.div_le_div_right (c := cal.width) hts
      omega
    have hfront : ∀ e ∈ cal.bucketAt j, next.rank ≤ e.rank :=
      fun e he => nextEvent_le (h.sorted _) hn he
    by_cases hmin : next.key.lt s.minEvent.key
    · rw [if_pos hmin]
      refine .inr ⟨_, rfl, rfl, rfl, hs.found, last hpassed.late hlate, .inr ⟨s.i, rfl, ?_, ?_⟩⟩
      · rw [hb]
        exact hn
      · rw [EventKey.lt_iff] at hmin
        rcases hpassed.least with ⟨h1, _⟩ | ⟨b, _, _, h3⟩
        · refine last (fun j' hj' => ?_) hfront
          rw [h1 j' hj']
          simp
        · exact last (fun j' hj' e he => hmin.le.trans (h3 j' hj' e he)) hfront
    · rw [if_neg hmin]
      refine .inr ⟨s, rfl, rfl, rfl, hs.found, last hpassed.late hlate, ?_⟩
      rw [EventKey.not_lt_iff] at hmin
      rcases hpassed.least with ⟨_, h2⟩ | ⟨b, h1, h2, h3⟩
      · -- the sentinel is above every timestamp
        have hts := (h.filed _ next hmem).2
        rcases Prod.Lex.toLex_le_toLex.mp hmin with hl | hl
        · dsimp only at hl
          omega
        · have := hl.1
          dsimp only at this
          omega
      · exact .inr ⟨b, h1, h2, last h3 fun e he => hmin.trans (hfront e he)⟩

theorem search_finds (h : Filed cal) (hc : Cursor cal) (hne : cal.contents ≠ [])
    {sentinel : EventKey}
    (hs : sentinel.ts = 18446744073709551615) : Finds cal (cal.search sentinel) := by
  have hlast : cal.lastBucket = cal.base % cal.nBuckets := hc.bucket
  unfold search
  refine loop_counted (P := At cal) (j := 0) cal.nBuckets ?_ ?_ _ h.buckets_pos ?_ (by omega)
  · intro j s s' hj hat hb
    rcases hat.visit h hc hj with ⟨_, _, _, hd⟩ | ⟨t, ht, hi, htop, hf, hp⟩
    · rw [hd] at hb
      cases hb
    · rw [ht] at hb
      unfold searchAdvance at hb
      dsimp only at hb
      split_ifs at hb with hlb
      obtain rfl := Turn.again.inj hb
      have hstep : (t.i + 1) % cal.nBuckets = (cal.base + (j + 1)) % cal.nBuckets := by
        rw [hi, hat.i, Nat.mod_add_mod, Nat.add_assoc]
      refine ⟨?_, hstep, ?_, hf, hp.late, hp.least⟩
      · by_contra hge
        have hround : j + 1 = cal.nBuckets := by omega
        exact hlb (by rw [hstep, hround, Nat.add_mod_right, hlast])
      · show add64 t.bucketTop cal.width = _
        rw [htop, hat.top, add64, Nat.mod_add_mod]
        exact congrArg (· % 18446744073709551616) (Nat.succ_mul (cal.base + j + 1) cal.width).symm
  · intro j s s' hj hat hb
    rcases hat.visit h hc hj with ⟨next, hn, hlt, hd⟩ | ⟨t, ht, hi, htop, hf, hp⟩
    · rw [hd] at hb
      obtain rfl := Turn.done.inj hb
      obtain ⟨hbase, he⟩ := hat.earliest h hc hj hn hlt
      refine .inl ⟨next, rfl, ?_, ?_, ?_, he⟩
      · show nextEvent _ (cal.buckets s.i) = _
        rw [hat.i]
        exact hn
      · show s.i = next.key.ts / cal.width % cal.nBuckets
        rw [hbase, hat.i]
      · show s.bucketTop = _
        rw [hbase, hat.top_eq h hc hj (nextEvent_mem hn)]
    · rw [ht] at hb
      unfold searchAdvance at hb
      dsimp only at hb
      split_ifs at hb with hlb
      obtain rfl := Turn.done.inj hb
      -- the walk is back at the cursor: every bucket has been passed
      have hround : j + 1 = cal.nBuckets := by
        by_contra hne'
        rw [hi, hat.i, Nat.mod_add_mod, Nat.add_assoc, hlast] at hlb
        have hmod : Nat.ModEq cal.nBuckets (j + 1) 0 :=
          Nat.ModEq.add_left_cancel' cal.base (by rw [Nat.add_zero]; exact not_not.mp hlb)
        rw [Nat.ModEq, Nat.mod_eq_of_lt (by omega), Nat.zero_mod] at hmod
        omega
      have hall : ∀ e ∈ cal.contents, ∃ j' < j + 1, e ∈ cal.bucketAt j' := fun e he => by
        rw [hround]
        exact h.mem_bucketAt hc he
      rcases hp.least with ⟨h1, _⟩ | ⟨b, h1, h2, h3⟩
      · obtain ⟨e, he⟩ := List.exists_mem_of_ne_nil _ hne
        obtain ⟨j', hj', hej⟩ := hall e he
        rw [h1 j' hj'] at hej
        cases hej
      · refine .inr ⟨hf, b, h1, h2, ?_, ?_⟩
        · have hm := nextEvent_mem h2
          exact h.mem_contents.mpr (by rw [(h.filed _ _ hm).1]; exact hm)
        · intro x hx
          obtain ⟨j', hj', hxj⟩ := hall x hx
          exact (EventKey.not_lt_iff _ _).mpr (h3 j' hj' x hxj)
  · refine ⟨?_, ?_, rfl, fun j' hj' => absurd hj' (Nat.not_lt_zero _), .inl ⟨?_, hs⟩⟩
    · exact hlast
    · rw [hc.top]
      exact (Nat.mod_eq_of_lt (h.top_lt hc.prio_lt le_rfl)).symm
    · exact fun j' hj' => absurd hj' (Nat.not_lt_zero _)

end Calendar
end NetGymSim.Core

import NetGymSim.Core.CalendarSearch
import NetGymSim.Core.ListScheduler

/-!
# Runs of `CalendarScheduler`

The insertion keeps the filing of the events, the removal also brings the cursor to the
event it takes out. A resize removes a few samples to estimate a width, puts them back
with the old cursor, and files everything again in the new buckets. So a run keeps the
filing and the cursor, and answers as the sorted list does.
-/

namespace NetGymSim.Core
open NetGymSim.Lib
namespace Calendar
variable {cal : Calendar}

structure SameShape (a b : Calendar) : Prop where
  reverse : a.reverse = b.reverse
  nBuckets : a.nBuckets = b.nBuckets
  width : a.width = b.width

theorem SameShape.hash {a b : Calendar} (h : SameShape a b) (ts : ℕ) : a.hash ts = b.hash ts := by
  unfold Calendar.hash
  rw [h.nBuckets, h.width]

theorem SameShape.refl (a : Calendar) : SameShape a a := ⟨rfl, rfl, rfl⟩

theorem SameShape.trans {a b c : Calendar} (h : SameShape a b) (h' : SameShape b c) :
    SameShape a c :=
  ⟨h.reverse.trans h'.reverse, h.nBuckets.trans h'.nBuckets, h.width.trans h'.width⟩

theorem Filed.of_buckets {a b : Calendar} (h : Filed a) (hs : SameShape b a)
    (hb : b.buckets = a.buckets) : Filed b where
  buckets_pos := by rw [hs.nBuckets]; exact h.buckets_pos
  width_pos := by rw [hs.width]; exact h.width_pos
  width_lt := by rw [hs.width]; exact h.width_lt
  filed i e he := by
    rw [hb] at he
    rw [hs.hash]
    exact h.filed i e he
  sorted i := by
    rw [hb, hs.reverse]
    exact h.sorted i

theorem Cursor.of_perm {a b : Calendar} (h : Cursor a) (hs : SameShape b a)
    (hl : b.lastPrio = a.lastPrio) (hb : b.lastBucket = a.lastBucket)
    (ht : b.bucketTop = a.bucketTop) (hp : b.contents.Perm a.contents) : Cursor b where
  prio_lt := by rw [hl]; exact h.prio_lt
  bucket := by rw [hb, hl, hs.hash]; exact h.bucket
  top := by rw [ht, hl, hs.width]; exact h.top
  ahead e he := by
    rw [hl]
    exact h.ahead e (hp.mem_iff.mp he)

def setSize (cal : Calendar) (q : ℕ) : Calendar := { cal with qSize := q }

theorem Filed.setSize (h : Filed cal) (q : ℕ) : Filed (cal.setSize q) :=
  h.of_buckets ⟨rfl, rfl, rfl⟩ rfl

theorem Cursor.setSize (h : Cursor cal) (q : ℕ) : Cursor (cal.setSize q) :=
  h.of_perm ⟨rfl, rfl, rfl⟩ rfl rfl rfl (List.Perm.refl _)

theorem contents_setSize (cal : Calendar) (q : ℕ) :
    (cal.setSize q).contents = cal.contents := rfl

theorem setSize_lastPrio (cal : Calendar) (q : ℕ) : (cal.setSize q).lastPrio = cal.lastPrio := rfl

def setBucket (cal : Calendar) (i : ℕ) (l : List Event) : Calendar :=
  { cal with buckets := Function.update cal.buckets i l }

theorem contents_setBucket (cal : Calendar) {i : ℕ} (hi : i < cal.nBuckets) :
    ∃ rest, cal.contents.Perm (cal.buckets i ++ rest) ∧
      ∀ l, (cal.setBucket i l).contents.Perm (l ++ rest) :=
  flatMap_update_perm List.nodup_range (List.mem_range.mpr hi) cal.buckets

theorem Filed.shrink (h : Filed cal) {i : ℕ} {l : List Event} (hl : l.Sublist (cal.buckets i)) :
    Filed (cal.setBucket i l) := by
  have hsub : ∀ j, ((cal.setBucket i l).buckets j).Sublist (cal.buckets j) := by
    intro j
    show (Function.update cal.buckets i l j).Sublist _
    by_cases hj : j = i
    · subst hj
      rwa [Function.update_self]
    · rw [Function.update_of_ne hj]
  exact ⟨h.buckets_pos, h.width_pos, h.width_lt,
    fun j x hx => h.filed j x ((hsub j).subset hx), fun j => (h.sorted j).sublist (hsub j)⟩

theorem Cursor.setBucket (h : Cursor cal) {i : ℕ} {l : List Event}
    (hl : ∀ x ∈ (cal.setBucket i l).contents, x ∈ cal.contents) : Cursor (cal.setBucket i l) :=
  ⟨h.prio_lt, h.bucket, h.top, fun x hx => h.ahead x (hl x hx)⟩

/-! ### Insertion -/

theorem doInsert_contents (h : Filed cal) (ev : Event) :
    (cal.doInsert ev).contents.Perm (ev :: cal.contents) := by
  obtain ⟨rest, h1, h2⟩ := contents_setBucket cal (h.hash_lt ev.key.ts)
  have hins := List.perm_orderedInsert (Before cal.reverse) ev (cal.buckets (cal.hash ev.key.ts))
  exact (h2 _).trans ((hins.append_right rest).trans (h1.symm.cons ev))

theorem doInsert_bucket_self (cal : Calendar) (ev : Event) :
    (cal.doInsert ev).buckets (cal.hash ev.key.ts) =
      (cal.buckets (cal.hash ev.key.ts)).orderedInsert (Before cal.reverse) ev :=
  Function.update_self ..

theorem doInsert_bucket_of_ne {ev : Event} {i : ℕ} (hi : i ≠ cal.hash ev.key.ts) :
    (cal.doInsert ev).buckets i = cal.buckets i := Function.update_of_ne hi _ _

theorem Filed.doInsert (h : Filed cal) {ev : Event} (hts : ev.key.ts < 9223372036854775808)
    (hu : ∀ x ∈ cal.contents, x.key.uid ≠ ev.key.uid) : Filed (cal.doInsert ev) where
  buckets_pos := h.buckets_pos
  width_pos := h.width_pos
  width_lt := h.width_lt
  filed i e he := by
    by_cases hi : i = cal.hash ev.key.ts
    · subst hi
      rw [doInsert_bucket_self, List.mem_orderedInsert] at he
      rcases he with rfl | he
      · exact ⟨rfl, hts⟩
      · exact h.filed _ e he
    · rw [doInsert_bucket_of_ne hi] at he
      exact h.filed i e he
  sorted i := by
    by_cases hi : i = cal.hash ev.key.ts
    · subst hi
      rw [doInsert_bucket_self]
      refine pairwise_orderedInsert before_trans (h.sorted _) fun b hb hnot => ?_
      have hmem : b ∈ cal.contents := h.mem_contents.mpr (by rw [(h.filed _ b hb).1]; exact hb)
      exact before_of_not (hu b hmem).symm hnot
    · rw [doInsert_bucket_of_ne hi]
      exact h.sorted i

theorem foldl_doInsert_eq (l : List Event) (cal : Calendar) :
    ∃ buckets, l.foldl doInsert cal = { cal with buckets := buckets } := by
  induction l generalizing cal with
  | nil => exact ⟨cal.buckets, rfl⟩
  | cons ev l ih => exact ih (cal.doInsert ev)

theorem foldl_doInsert (h : Filed cal) (l : List Event)
    (hts : ∀ e ∈ l, e.key.ts < 9223372036854775808) (hu : DistinctUids (l ++ cal.contents)) :
    Filed (l.foldl doInsert cal) ∧ (l.foldl doInsert cal).contents.Perm (l ++ cal.contents) := by
  induction l generalizing cal with
  | nil => exact ⟨h, List.Perm.refl _⟩
  | cons ev l ih =>
    have hp := doInsert_contents h ev
    have hmid : (l ++ (cal.doInsert ev).contents).Perm (ev :: l ++ cal.contents) :=
      (hp.append_left l).trans List.perm_middle
    have hfresh : ∀ x ∈ cal.contents, x.key.uid ≠ ev.key.uid := fun x hx he =>
      (List.nodup_cons.mp hu).1 (List.mem_map.mpr ⟨x, List.mem_append_right l hx, he⟩)
    obtain ⟨hf, hc⟩ := ih (h.doInsert (hts ev List.mem_cons_self) hfresh)
      (fun e he => hts e (List.mem_cons_of_mem ev he)) (hu.perm hmid.symm)
    exact ⟨hf, hc.trans hmid⟩

/-! ### Removal of the earliest event -/

structure Taken (cal : Calendar) (e : Event) (cal' : Calendar) : Prop where
  earliest : Earliest e cal.contents
  filed : Filed cal'
  cursor : Cursor cal'
  contents : cal.contents.Perm (e :: cal'.contents)
  prio : cal'.lastPrio = e.key.ts
  shape : SameShape cal' cal
  size : cal'.qSize = cal.qSize

def popFront (cal : Calendar) (b ts : ℕ) : Calendar :=
  { cal with
    lastBucket := cal.hash ts
    lastPrio := ts
    bucketTop := (ts / cal.width + 1) * cal.width
    buckets := Function.update cal.buckets b (popEvent cal.reverse (cal.buckets b)) }

theorem popFront_taken (h : Filed cal) {b : ℕ} {e : Event}
    (hn : nextEvent cal.reverse (cal.buckets b) = some e) (he : Earliest e cal.contents) :
    Taken cal e (cal.popFront b e.key.ts) := by
  have hb : b < cal.nBuckets := by
    rw [← (h.filed b e (nextEvent_mem hn)).1]
    exact h.hash_lt _
  obtain ⟨rest, h1, h2⟩ := contents_setBucket cal hb
  have hperm : cal.contents.Perm (e :: (cal.popFront b e.key.ts).contents) :=
    h1.trans (((nextEvent_perm hn).append_right rest).trans ((h2 _).symm.cons e))
  refine ⟨he, (h.shrink (i := b) popEvent_sublist).of_buckets ⟨rfl, rfl, rfl⟩ rfl,
    ⟨h.ts_lt he.mem, rfl, rfl, ?_⟩, hperm, rfl, ⟨rfl, rfl, rfl⟩, rfl⟩
  intro x hx
  have hle := (EventKey.not_lt_iff _ _).mp
    (he.least x (hperm.mem_iff.mpr (List.mem_cons_of_mem e hx)))
  rcases Prod.Lex.toLex_le_toLex.mp hle with hl | hl
  · exact hl.le
  · exact hl.1.le

theorem doRemoveNext_taken (h : Filed cal) (hc : Cursor cal) (hne : cal.contents ≠ []) :
    Taken cal cal.doRemoveNext.1 cal.doRemoveNext.2 := by
  unfold doRemoveNext
  have hfinds : Finds cal (cal.search ⟨18446744073709551615, 0, 4294967295⟩) :=
    search_finds h hc hne rfl
  generalize cal.search ⟨18446744073709551615, 0, 4294967295⟩ = s at hfinds
  rcases hfinds with ⟨next, hf, hn, hi, ht, he⟩ | ⟨hf, b, hb, hn, he⟩
  · have hpop := popFront_taken h hn he
    rw [popFront, ← hi, ← ht] at hpop
    simp only [hf]
    exact hpop
  · have hpop := popFront_taken h hn he
    have htop := h.top_lt (h.ts_lt he.mem) le_rfl
    simp only [hf, hb, hn, Option.getD_some, mul64, Nat.mod_eq_of_lt htop]
    exact hpop

theorem removeNext_fst (cal : Calendar) : cal.removeNext.1 = cal.doRemoveNext.1 := by
  delta removeNext
  rfl

theorem removeNext_snd (cal : Calendar) : cal.removeNext.2 =
    { cal.doRemoveNext.2 with qSize := sub32 cal.doRemoveNext.2.qSize 1 }.resizeDown := by
  delta removeNext
  rfl

theorem peekNext_earliest (h : Filed cal) (hc : Cursor cal) (hne : cal.contents ≠ []) :
    Earliest cal.peekNext cal.contents := by
  unfold peekNext
  have hfinds : Finds cal (cal.search ⟨18446744073709551615, 4294967295, 0⟩) :=
    search_finds h hc hne rfl
  generalize cal.search ⟨18446744073709551615, 4294967295, 0⟩ = s at hfinds
  rcases hfinds with ⟨next, hf, _, _, _, he⟩ | ⟨hf, _, _, _, he⟩
  · simp only [hf]
    exact he
  · simp only [hf]
    exact he

/-! ### Resizing -/

structure Kept (cal cal' : Calendar) : Prop where
  filed : Filed cal'
  cursor : Cursor cal'
  contents : cal'.contents.Perm cal.contents
  prio : cal'.lastPrio = cal.lastPrio
  size : cal'.qSize = cal.qSize

theorem sample_taken (h : Filed cal) (hc : Cursor cal) {n : ℕ} (hn : n ≤ cal.contents.length) :
    Filed (sample n cal).2 ∧ SameShape (sample n cal).2 cal ∧ (sample n cal).2.qSize = cal.qSize ∧
      cal.contents.Perm ((sample n cal).1 ++ (sample n cal).2.contents) := by
  induction n generalizing cal with
  | zero => exact ⟨h, SameShape.refl cal, rfl, List.Perm.refl _⟩
  | succ n ih =>
    have ht := doRemoveNext_taken h hc (List.ne_nil_of_length_pos (by omega))
    have hlen := ht.contents.length_eq
    rw [List.length_cons] at hlen
    obtain ⟨hf, hs, hq, hp⟩ := ih ht.filed ht.cursor (by omega)
    exact ⟨hf, hs.trans ht.shape, hq.trans ht.size, ht.contents.trans (hp.cons _)⟩

theorem nSamples_le (cal : Calendar) : cal.nSamples ≤ cal.qSize := by
  unfold nSamples
  split_ifs <;> omega

theorem widthOf_bounds (n : ℕ) (samples : List Event) :
    1 ≤ widthOf n samples ∧ widthOf n samples < 18446744073709551616 :=
  ⟨le_max_right _ _, max_lt (Nat.mod_lt _ (by omega)) (by omega)⟩

theorem calculateNewWidth_kept (h : Filed cal) (hc : Cursor cal) (hu : DistinctUids cal.contents)
    (hq : cal.qSize ≤ cal.contents.length) :
    Kept cal cal.calculateNewWidth.2 ∧ cal.calculateNewWidth.2.reverse = cal.reverse ∧
      1 ≤ cal.calculateNewWidth.1 ∧ cal.calculateNewWidth.1 < 18446744073709551616 := by
  unfold calculateNewWidth
  by_cases h2 : cal.qSize < 2
  · rw [if_pos h2]
    exact ⟨⟨h, hc, List.Perm.refl _, rfl, rfl⟩, rfl, le_rfl, by omega⟩
  rw [if_neg h2]
  obtain ⟨hf, hs, hsize, hp⟩ := sample_taken h hc (cal.nSamples_le.trans hq)
  have hts : ∀ e ∈ (sample cal.nSamples cal).1, e.key.ts < 9223372036854775808 := fun e he =>
    h.ts_lt (hp.mem_iff.mpr (List.mem_append_left _ he))
  obtain ⟨hf', hp'⟩ := foldl_doInsert hf _ hts (hu.perm hp)
  obtain ⟨buckets, hb⟩ := foldl_doInsert_eq (sample cal.nSamples cal).1 (sample cal.nSamples cal).2
  rw [hb] at hf' hp'
  have hperm := hp'.trans hp.symm
  dsimp only
  rw [hb]
  have hshape : SameShape { (sample cal.nSamples cal).2 with
      buckets := buckets
      lastBucket := cal.lastBucket
      bucketTop := cal.bucketTop
      lastPrio := cal.lastPrio } cal := ⟨hs.reverse, hs.nBuckets, hs.width⟩
  refine ⟨⟨hf'.of_buckets ⟨rfl, rfl, rfl⟩ rfl, hc.of_perm hshape rfl rfl rfl hperm, hperm, rfl,
    hsize⟩, hs.reverse, widthOf_bounds _ _⟩

theorem contents_init (cal : Calendar) (nBuckets width startPrio : ℕ) :
    (cal.init nBuckets width startPrio).contents = [] := by
  simp [contents, init]

theorem init_ready (cal : Calendar) {nBuckets width startPrio : ℕ} (hn : 1 ≤ nBuckets)
    (h1 : 1 ≤ width) (h2 : width < 18446744073709551616)
    (hp : startPrio < 9223372036854775808) :
    Filed (cal.init nBuckets width startPrio) ∧ Cursor (cal.init nBuckets width startPrio) := by
  have hf : Filed (cal.init nBuckets width startPrio) :=
    ⟨hn, h1, h2, fun _ _ he => absurd he List.not_mem_nil, fun _ => List.Pairwise.nil⟩
  refine ⟨hf, hp, rfl, Nat.mod_eq_of_lt (hf.top_lt hp le_rfl), fun e he => ?_⟩
  rw [contents_init] at he
  cases he

theorem doResize_kept (h : Filed cal) (hc : Cursor cal) (hu : DistinctUids cal.contents)
    {newSize newWidth : ℕ} (hn : 1 ≤ newSize) (h1 : 1 ≤ newWidth)
    (h2 : newWidth < 18446744073709551616) : Kept cal (cal.doResize newSize newWidth) := by
  unfold doResize
  obtain ⟨hf, hcur⟩ := init_ready cal hn h1 h2 hc.prio_lt
  have hnil : cal.contents ++ (cal.init newSize newWidth cal.lastPrio).contents = cal.contents := by
    rw [contents_init, List.append_nil]
  obtain ⟨hf', hp'⟩ := foldl_doInsert hf cal.contents (fun e he => h.ts_lt he)
    (by rw [hnil]; exact hu)
  rw [hnil] at hp'
  obtain ⟨buckets, hb⟩ := foldl_doInsert_eq cal.contents (cal.init newSize newWidth cal.lastPrio)
  rw [hb] at hf' hp' ⊢
  exact ⟨hf', ⟨hcur.prio_lt, hcur.bucket, hcur.top, fun e he => hc.ahead e (hp'.mem_iff.mp he)⟩,
    hp', rfl, rfl⟩

theorem resize_kept (h : Filed cal) (hc : Cursor cal) (hu : DistinctUids cal.contents)
    (hq : cal.qSize ≤ cal.contents.length) {newSize : ℕ} (hn : 1 ≤ newSize) :
    Kept cal (cal.resize newSize) := by
  obtain ⟨hw, _, h1, h2⟩ := calculateNewWidth_kept h hc hu hq
  have hr := doResize_kept hw.filed hw.cursor (hu.perm hw.contents.symm) hn h1 h2
  exact ⟨hr.filed, hr.cursor, hr.contents.trans hw.contents, hr.prio.trans hw.prio,
    hr.size.trans hw.size⟩

theorem resizeUp_kept (h : Filed cal) (hc : Cursor cal) (hu : DistinctUids cal.contents)
    (hq : cal.qSize ≤ cal.contents.length) : Kept cal cal.resizeUp := by
  have hpos := h.buckets_pos
  unfold resizeUp
  split_ifs
  · exact resize_kept h hc hu hq (by omega)
  · exact ⟨h, hc, List.Perm.refl _, rfl, rfl⟩

theorem resizeDown_kept (h : Filed cal) (hc : Cursor cal) (hu : DistinctUids cal.contents)
    (hq : cal.qSize ≤ cal.contents.length) : Kept cal cal.resizeDown := by
  unfold resizeDown
  split_ifs with hlt
  · exact resize_kept h hc hu hq (by omega)
  · exact ⟨h, hc, List.Perm.refl _, rfl, rfl⟩

/-! ### Runs -/

def timely (s : SchedulerRun Calendar) : SchedulerOp → Prop
  | .insert ev => s.lastTs ≤ ev.key.ts ∧ ev.key.ts < 9223372036854775808
  | _ => True

instance (s : SchedulerRun Calendar) : (op : SchedulerOp) → Decidable (timely s op)
  | .insert ev =>
      inferInstanceAs (Decidable (s.lastTs ≤ ev.key.ts ∧ ev.key.ts < 9223372036854775808))
  | .peekNext | .removeNext | .remove _ => inferInstanceAs (Decidable True)

structure Sound (s : SchedulerRun Calendar) : Prop where
  filed : Filed s.sched
  cursor : Cursor s.sched
  contents : s.sched.contents.Perm s.stored
  prio : s.sched.lastPrio = s.lastTs
  size : s.sched.qSize = s.stored.length % 4294967296
  uids : DistinctUids s.stored

namespace Sound
variable {s : SchedulerRun Calendar}

theorem initial (reverse : Bool) : Sound { sched := new reverse } := by
  obtain ⟨hf, hc⟩ := init_ready ⟨reverse, fun _ => [], 0, 0, 0, 0, 0, 0⟩
    (by omega : 1 ≤ 2) (le_rfl : 1 ≤ 1) (by omega) (by omega : 0 < 9223372036854775808)
  refine ⟨hf, hc, ?_, rfl, ?_, List.nodup_nil⟩
  · show ((new reverse).contents).Perm []
    rw [new, contents_init]
  · show 0 = 0 % 4294967296
    rw [Nat.zero_mod]

theorem distinct (h : Sound s) : DistinctUids s.sched.contents := h.uids.perm h.contents.symm

theorem qSize_le (h : Sound s) : s.sched.qSize ≤ s.sched.contents.length := by
  rw [h.size, h.contents.length_eq]
  exact Nat.mod_le _ _

theorem contents_ne_nil (h : Sound s) (hne : s.stored ≠ []) : s.sched.contents ≠ [] := by
  intro e
  have := h.contents
  rw [e] at this
  exact hne (List.nil_perm.mp this)

theorem kept {cal' : Calendar} (h : Sound s) (hk : Kept s.sched cal') :
    Sound { s with sched := cal' } :=
  ⟨hk.filed, hk.cursor, hk.contents.trans h.contents, hk.prio.trans h.prio,
    hk.size.trans h.size, h.uids⟩

theorem resizeUp (h : Sound s) : Sound { s with sched := s.sched.resizeUp } :=
  h.kept (resizeUp_kept h.filed h.cursor h.distinct h.qSize_le)

theorem resizeDown (h : Sound s) : Sound { s with sched := s.sched.resizeDown } :=
  h.kept (resizeDown_kept h.filed h.cursor h.distinct h.qSize_le)

theorem earliest (h : Sound s) (hne : s.stored ≠ []) :
    Earliest s.sched.peekNext s.stored :=
  (peekNext_earliest h.filed h.cursor (h.contents_ne_nil hne)).of_perm h.contents

theorem taken (h : Sound s) (hne : s.stored ≠ []) :
    Taken s.sched s.sched.doRemoveNext.1 s.sched.doRemoveNext.2 :=
  doRemoveNext_taken h.filed h.cursor (h.contents_ne_nil hne)

theorem agree (h : Sound s) (hne : s.stored ≠ []) :
    s.sched.removeNext.1 = s.sched.peekNext := by
  rw [removeNext_fst]
  exact h.uids.earliest_unique ((h.taken hne).earliest.of_perm h.contents) (h.earliest hne)

theorem insert (h : Sound s) {ev : Event} (hu : ∀ x ∈ s.stored, x.key.uid ≠ ev.key.uid)
    (hle : s.lastTs ≤ ev.key.ts) (hts : ev.key.ts < 9223372036854775808) :
    Sound (impl.next s (.insert ev)) := by
  have hp := doInsert_contents h.filed ev
  have hfresh : ∀ x ∈ s.sched.contents, x.key.uid ≠ ev.key.uid :=
    fun x hx => hu x (h.contents.mem_iff.mp hx)
  have hc := h.cursor
  have hput : Sound ⟨{ s.sched.doInsert ev with qSize := add32 s.sched.qSize 1 },
      ev :: s.stored, s.lastTs⟩ := by
    refine ⟨(h.filed.doInsert hts hfresh).of_buckets ⟨rfl, rfl, rfl⟩ rfl,
      ⟨hc.prio_lt, hc.bucket, hc.top, ?_⟩, hp.trans (h.contents.cons ev), h.prio, ?_,
      h.uids.cons hu⟩
    · intro e he
      rcases List.mem_cons.mp (hp.mem_iff.mp he) with rfl | he
      · exact h.prio.trans_le hle
      · exact hc.ahead e he
    · show add32 s.sched.qSize 1 = (s.stored.length + 1) % 4294967296
      rw [add32, h.size, Nat.mod_add_mod]
  exact hput.resizeUp

theorem size_pred {n q : ℕ} (hq : q = n % 4294967296) (hn : 1 ≤ n) :
    sub32 q 1 = (n - 1) % 4294967296 := by
  unfold sub32
  omega

theorem take (h : Sound s) {e : Event} {cal' : Calendar} (ht : Taken s.sched e cal') :
    Sound ⟨cal'.setSize (sub32 cal'.qSize 1), s.stored.erase e, e.key.ts⟩ := by
  have hmem := h.contents.mem_iff.mp ht.earliest.mem
  refine ⟨ht.filed.setSize _, ht.cursor.setSize _, ?_, (setSize_lastPrio cal' _).trans ht.prio, ?_,
    h.uids.erase _⟩
  · rw [contents_setSize]
    exact ((ht.contents.symm.trans h.contents).trans (List.perm_cons_erase hmem)).cons_inv
  · rw [List.length_erase_of_mem hmem]
    exact size_pred (ht.size.trans h.size) (List.length_pos_of_mem hmem)

theorem removeNext (h : Sound s) (hne : s.stored ≠ []) :
    Sound (impl.next s .removeNext) := by
  have hcut := (h.take (h.taken hne)).resizeDown
  show Sound ⟨s.sched.removeNext.2, s.stored.erase s.sched.removeNext.1,
    s.sched.removeNext.1.key.ts⟩
  rw [removeNext_fst, removeNext_snd]
  exact hcut

theorem remove (h : Sound s) {ev : Event} (he : ev ∈ s.stored) :
    Sound (impl.next s (.remove ev)) := by
  have hmem := h.contents.mem_iff.mpr he
  have hc := h.cursor
  have hb := h.filed.mem_contents.mp hmem
  obtain ⟨rest, h1, h2⟩ := contents_setBucket s.sched (h.filed.hash_lt ev.key.ts)
  have huid : DistinctUids (s.sched.buckets (s.sched.hash ev.key.ts)) :=
    (h.distinct.perm h1).sublist ((List.sublist_append_left _ rest).map _)
  have hany : ((s.sched.buckets (s.sched.hash ev.key.ts)).any
      fun e => e.key.uid = ev.key.uid) = true :=
    List.any_eq_true.mpr ⟨ev, hb, decide_eq_true rfl⟩
  have hp : (s.sched.setBucket (s.sched.hash ev.key.ts)
      ((s.sched.buckets (s.sched.hash ev.key.ts)).erase ev)).contents.Perm
      (s.sched.contents.erase ev) := by
    refine (h2 _).trans ?_
    rw [← List.erase_append_left rest hb]
    exact (h1.erase ev).symm
  have hcut : Sound ⟨(s.sched.setBucket (s.sched.hash ev.key.ts)
      ((s.sched.buckets (s.sched.hash ev.key.ts)).erase ev)).setSize (sub32 s.sched.qSize 1),
      s.stored.erase ev, s.lastTs⟩ := by
    have hcur := hc.setBucket fun x hx => List.erase_subset (hp.mem_iff.mp hx)
    refine ⟨(h.filed.shrink List.erase_sublist).setSize _, hcur.setSize _, ?_,
      (setSize_lastPrio _ _).trans h.prio, ?_, h.uids.erase ev⟩
    · rw [contents_setSize]
      exact hp.trans (h.contents.erase ev)
    · rw [List.length_erase_of_mem he]
      exact size_pred h.size (List.length_pos_of_mem he)
  show Sound { s with sched := s.sched.remove ev, stored := s.stored.erase ev }
  unfold Calendar.remove
  rw [if_pos hany, huid.eraseP_uid hb]
  exact hcut.resizeDown

theorem step (h : Sound s) (op : SchedulerOp) (he : SchedulerImpl.enabled s op)
    (ht : timely s op) : Sound (impl.next s op) := by
  cases op with
  | insert ev => exact h.insert he ht.1 ht.2
  | peekNext => exact h
  | removeNext => exact h.removeNext he
  | remove ev => exact h.remove he

end Sound

structure Refines (s : SchedulerRun Calendar) (t : SchedulerRun (List Event)) : Prop where
  stored : s.stored = t.stored
  lastTs : s.lastTs = t.lastTs
  contents : s.sched.contents.Perm t.sched
  buckets_pos : 1 ≤ s.sched.nBuckets
  earliest : s.stored ≠ [] → Earliest s.sched.peekNext s.stored
  agree : s.stored ≠ [] → s.sched.removeNext.1 = s.sched.peekNext
  peekNext : s.stored ≠ [] → s.sched.peekNext = ListScheduler.peekNext t.sched

theorem Refines.of_sound {s : SchedulerRun Calendar} {t : SchedulerRun (List Event)}
    (hs : Sound s) (ht : ListScheduler.Holds t) (hst : s.stored = t.stored)
    (hts : s.lastTs = t.lastTs) : Refines s t where
  stored := hst
  lastTs := hts
  contents := by
    refine hs.contents.trans ?_
    rw [hst]
    exact ht.contents.symm
  buckets_pos := hs.filed.buckets_pos
  earliest := hs.earliest
  agree := hs.agree
  peekNext hne := by
    have hl := ht.serves.earliest (hst ▸ hne)
    rw [← hst] at hl
    exact hs.uids.earliest_unique (hs.earliest hne) hl

theorem Refines.step {s : SchedulerRun Calendar} {t : SchedulerRun (List Event)}
    (h : Refines s t) (op : SchedulerOp) (he : SchedulerImpl.enabled s op) :
    (impl.next s op).stored = (ListScheduler.impl.next t op).stored ∧
      (impl.next s op).lastTs = (ListScheduler.impl.next t op).lastTs := by
  cases op with
  | insert ev => exact ⟨congrArg (ev :: ·) h.stored, h.lastTs⟩
  | peekNext => exact ⟨h.stored, h.lastTs⟩
  | removeNext =>
    have hout : s.sched.removeNext.1 = (ListScheduler.removeNext t.sched).1 :=
      (h.agree he).trans (h.peekNext he)
    show s.stored.erase s.sched.removeNext.1 = t.stored.erase _ ∧ s.sched.removeNext.1.key.ts = _
    rw [hout, h.stored]
    exact ⟨rfl, rfl⟩
  | remove ev => exact ⟨congrArg (List.erase · ev) h.stored, h.lastTs⟩

theorem calendar_scheduler_refines_sorted_list (reverse : Bool) {ops : List SchedulerOp}
    {s : SchedulerRun Calendar}
    (h : (impl.machine.restrict timely).Reaches { sched := new reverse } ops s) :
    ∃ t, ListScheduler.impl.machine.Reaches { sched := [] } ops t ∧ Refines s t := by
  have hinit : Sound { sched := new reverse } ∧ ListScheduler.Holds { sched := [] } ∧
      Refines { sched := new reverse } { sched := [] } :=
    ⟨Sound.initial reverse, ListScheduler.Holds.initial,
      Refines.of_sound (Sound.initial reverse) ListScheduler.Holds.initial rfl rfl⟩
  have hstep : ∀ s t op, (Sound s ∧ ListScheduler.Holds t ∧ Refines s t) →
      (impl.machine.restrict timely).enabled s op →
      ListScheduler.impl.machine.enabled t op ∧ Sound (impl.next s op) ∧
        ListScheduler.Holds (ListScheduler.impl.next t op) ∧
        Refines (impl.next s op) (ListScheduler.impl.next t op) := by
    intro s t op ⟨hs, hl, hR⟩ ⟨he, htime⟩
    have he' : SchedulerImpl.enabled t op := by
      have h0 : SchedulerImpl.enabled s op := he
      cases op <;> simp only [SchedulerImpl.enabled, hR.stored] at h0 ⊢ <;> exact h0
    have hs' := hs.step op he htime
    have hl' := hl.step op he'
    obtain ⟨h1, h2⟩ := hR.step op he
    exact ⟨he', hs', hl', Refines.of_sound hs' hl' h1 h2⟩
  obtain ⟨t, ht, _, _, hR⟩ := h.simulate
    (R := fun s t => Sound s ∧ ListScheduler.Holds t ∧ Refines s t) hinit hstep
  exact ⟨t, ht, hR⟩

def resizingRun : List SchedulerOp :=
  [.insert ⟨1, 5, 1, 0⟩, .insert ⟨2, 9, 2, 0⟩, .insert ⟨3, 5, 3, 0⟩, .insert ⟨4, 40, 4, 0⟩,
    .insert ⟨5, 7, 5, 0⟩, .insert ⟨6, 6, 6, 0⟩, .removeNext, .remove ⟨4, 40, 4, 0⟩, .removeNext,
    .removeNext, .insert ⟨7, 6, 7, 0⟩, .peekNext, .removeNext, .removeNext]

theorem calendar_scheduler_refines_sorted_list_resizing :
    ∃ t, ListScheduler.impl.machine.Reaches { sched := [] } resizingRun t ∧
      Refines ((impl.machine.restrict timely).exec { sched := new true } resizingRun) t :=
  calendar_scheduler_refines_sorted_list true (Machine.Permits.reaches (by decide +kernel))

end Calendar
end NetGymSim.Core

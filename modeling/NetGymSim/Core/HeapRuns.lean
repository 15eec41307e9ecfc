import NetGymSim.Core.HeapScheduler

/-!
# Runs of `HeapScheduler`

Taking entry `i` out means exchanging it with the last leaf and dropping that. The
insertion, the removal of the root, and a removal whose leaf fits under the parent of
the hole keep the heap order and what is stored; a removal whose leaf does not fit
leaves the order broken. So a run keeps the promise of the scheduler exactly when all
its removals fit.
-/

namespace NetGymSim.Core
open NetGymSim.Lib
namespace HeapScheduler

/-- `Exch` with the last leaf and `pop_back`. -/
def takeOut (heap : List Event) (i : ℕ) : List Event := (exch heap i (last heap)).dropLast

theorem length_takeOut (heap : List Event) (i : ℕ) :
    (takeOut heap i).length = heap.length - 1 := by simp [takeOut]

theorem get_takeOut {heap : List Event} {i j : ℕ} (hi : i < heap.length)
    (hj : j < heap.length - 1) :
    get (takeOut heap i) j = if j = i then get heap (last heap) else get heap j := by
  have hd : get (takeOut heap i) j = get (exch heap i (last heap)) j := by
    have hj' : j < (exch heap i (last heap)).length - 1 := by rw [length_exch]; exact hj
    simp only [get, takeOut, List.getD_eq_getElem?_getD, List.getElem?_dropLast, if_pos hj']
  rw [hd, get_exch hi (by unfold last; omega)]
  have : j ≠ last heap := by unfold last; omega
  simp [this]

theorem getLast_eq_get {heap : List Event} (h : heap ≠ []) :
    heap.getLast h = get heap (last heap) := by
  unfold get last
  rw [List.getD_eq_getElem?_getD, ← List.getLast?_eq_getElem?, List.getLast?_eq_some_getLast h]
  rfl

theorem tail_takeOut {heap : List Event} {i : ℕ} (h1 : 1 ≤ i) (hi : i < heap.length) :
    heap.tail.Perm (get heap i :: (takeOut heap i).tail) := by
  have hlast : last heap < heap.length := by unfold last; omega
  have hE := tail_exch h1 hi (b := last heap) (by unfold last; omega) hlast
  have hne : exch heap i (last heap) ≠ [] := by
    intro e
    have := congrArg List.length e
    rw [length_exch] at this
    simp at this
    simp [this] at hi
  have hend : (exch heap i (last heap)).getLast hne = get heap i := by
    have hl : last (exch heap i (last heap)) = last heap := by
      unfold last
      rw [length_exch]
    rw [getLast_eq_get, hl, get_exch hi hlast]
    by_cases he : last heap = i
    · rw [if_pos he, he]
    · rw [if_neg he, if_pos rfl]
  have hsplit := List.dropLast_append_getLast hne
  have hdne : (exch heap i (last heap)).dropLast ≠ [] := by
    intro e
    have := congrArg List.length e
    simp at this
    omega
  rw [← hsplit, List.tail_append_of_ne_nil hdne, hend] at hE
  exact hE.symm.trans List.perm_append_comm

def Fits (heap : List Event) (i : ℕ) : Bool :=
  isRoot i ∨ ¬ isLessStrictly heap (last heap) (parent i)

theorem Fits.parent_le {heap : List Event} {i : ℕ} (h : Fits heap i) (h2 : 2 ≤ i) :
    keyAt heap (i / 2) ≤ keyAt heap (last heap) := by
  rcases of_decide_eq_true h with hr | hl
  · have : i = 1 := of_decide_eq_true hr
    omega
  · rwa [isLessStrictly_iff, not_lt] at hl

theorem lt_parent_of_not_fits {heap : List Event} {i : ℕ} (h1 : 1 ≤ i) (h : ¬ Fits heap i) :
    2 ≤ i ∧ keyAt heap (last heap) < keyAt heap (i / 2) := by
  constructor
  · by_contra hc
    exact h (decide_eq_true (.inl (decide_eq_true (by unfold root; omega))))
  · by_contra hc
    exact h (decide_eq_true (.inr (mt (isLessStrictly_iff _ _ _).mp hc)))

theorem takeOut_downFrom {heap : List Event} {i : ℕ} (h1 : 1 ≤ i) (hi : i < heap.length)
    (h : Ordered heap) (hfit : Fits heap i) :
    DownFrom (keyAt (takeOut heap i)) (last (takeOut heap i)) i := by
  have hn : last (takeOut heap i) = heap.length - 2 := by
    unfold last
    rw [length_takeOut]
    omega
  rw [hn]
  have hfit' : 2 ≤ i → keyAt heap (i / 2) ≤ keyAt heap (last heap) := Fits.parent_le hfit
  have hL : last heap = heap.length - 2 + 1 := by unfold last; omega
  unfold Ordered at h
  rw [hL] at h hfit'
  refine h.replace ?_ ?_ hfit'
  · intro j hj hne
    unfold keyAt
    by_cases hL2 : heap.length = 2
    · -- only the root was there
      obtain rfl : i = 1 := by omega
      obtain rfl : j = 0 := by omega
      rw [get_takeOut hi (by omega), if_neg hne]
    · rw [get_takeOut hi (by omega), if_neg hne]
  · intro hle
    unfold keyAt
    rw [get_takeOut hi (by omega), if_pos rfl, ← hL]

theorem topDown_takeOut {heap : List Event} {i : ℕ} (h1 : 1 ≤ i) (hi : i < heap.length)
    (h : Ordered heap) (hfit : Fits heap i) :
    Ordered (topDown (takeOut heap i) i) ∧
      heap.tail.Perm (get heap i :: (topDown (takeOut heap i) i).tail) ∧
      (topDown (takeOut heap i) i).length = heap.length - 1 := by
  obtain ⟨ho, hp, hl⟩ := topDown_spec h1 (takeOut_downFrom h1 hi h hfit)
  exact ⟨ho, (tail_takeOut h1 hi).trans (hp.symm.cons _), by rw [hl, length_takeOut]⟩

/-- A leaf that belongs further up stays where it was put. -/
theorem topDown_takeOut_breaks {heap : List Event} {i : ℕ} (h1 : 1 ≤ i) (hi : i < heap.length)
    (h : Ordered heap) (hfit : ¬ Fits heap i) : ¬ Ordered (topDown (takeOut heap i) i) := by
  obtain ⟨h2, hlt⟩ := lt_parent_of_not_fits h1 hfit
  have hne : i ≠ last heap := by
    rintro rfl
    exact absurd (h (last heap) h2 le_rfl) (not_le.mpr hlt)
  have hil : i < heap.length - 1 := by unfold last at hne; omega
  have hk : ∀ j, j < heap.length - 1 → keyAt (takeOut heap i) j =
      if j = i then keyAt heap (last heap) else keyAt heap j := by
    intro j hj
    unfold keyAt
    rw [get_takeOut hi hj]
    split_ifs <;> rfl
  have hstay : topDown (takeOut heap i) i = takeOut heap i := by
    refine topDown_of_lt fun c hc hci => ?_
    have hcl : c < heap.length - 1 := by
      unfold last at hc
      rw [length_takeOut] at hc
      omega
    rw [hk i hil, hk c hcl, if_pos rfl, if_neg (by omega)]
    have hup := h i h2 (by unfold last; omega)
    have hdown := h c (by omega) (by unfold last; omega)
    rw [hci] at hdown
    exact hlt.trans_le (hup.trans hdown)
  rw [hstay]
  intro ho
  have := ho i h2 (by unfold last; rw [length_takeOut]; omega)
  rw [hk i hil, hk (i / 2) (by omega), if_pos rfl, if_neg (by omega)] at this
  exact absurd this (not_le.mpr hlt)

/-! ### Runs -/

structure Holds (s : SchedulerRun (List Event)) : Prop where
  ordered : Ordered s.sched
  contents : s.sched.tail.Perm s.stored
  length : s.sched.length = s.stored.length + 1
  uids : DistinctUids s.stored

namespace Holds
variable {s : SchedulerRun (List Event)}

theorem initial : Holds { sched := HeapScheduler.init } :=
  ⟨fun i h2 hi => by simp [HeapScheduler.init, last] at hi; omega, List.Perm.refl _, rfl,
    List.nodup_nil⟩

theorem mem_get (h : Holds s) {i : ℕ} (h1 : 1 ≤ i) (hi : i < s.sched.length) :
    get s.sched i ∈ s.stored := by
  refine h.contents.mem_iff.mp ?_
  obtain ⟨d, t, ht⟩ := List.exists_cons_of_length_pos (by omega : 0 < s.sched.length)
  obtain ⟨j, rfl⟩ : ∃ j, i = j + 1 := ⟨i - 1, by omega⟩
  rw [ht] at hi ⊢
  simp only [List.length_cons, Nat.add_lt_add_iff_right] at hi
  simp [get, List.getD_eq_getElem?_getD, hi]

theorem exists_get (h : Holds s) {e : Event} (he : e ∈ s.stored) :
    ∃ i, 1 ≤ i ∧ i < s.sched.length ∧ get s.sched i = e := by
  have hm := h.contents.mem_iff.mpr he
  obtain ⟨d, t, ht⟩ := List.exists_cons_of_length_pos (by rw [h.length]; omega :
    0 < s.sched.length)
  rw [ht] at hm ⊢
  obtain ⟨j, hj, hje⟩ := List.mem_iff_getElem.mp hm
  refine ⟨j + 1, by omega, by simpa using hj, ?_⟩
  have hj' : j < t.length := hj
  simpa [get, List.getD_eq_getElem?_getD, hj'] using hje

theorem earliest (h : Holds s) (hne : s.stored ≠ []) : Earliest (peekNext s.sched) s.stored := by
  have hpos := List.length_pos_of_ne_nil hne
  have hlen := h.length
  refine ⟨h.mem_get le_rfl (by unfold root; omega), fun x hx => ?_⟩
  obtain ⟨i, h1, hi, rfl⟩ := h.exists_get hx
  rw [EventKey.not_lt_iff]
  exact h.ordered.root_le h1 (by unfold last; omega)

theorem serves (h : Holds s) : impl.Serves s where
  contents := h.contents
  empty := by
    have hl := h.length
    show isEmpty s.sched ↔ _
    unfold isEmpty
    rw [decide_eq_true_iff, hl, ← List.length_eq_zero_iff]
    omega
  earliest := h.earliest
  agree _ := rfl

theorem insert (h : Holds s) {ev : Event} (hu : ∀ x ∈ s.stored, x.key.uid ≠ ev.key.uid) :
    Holds (impl.next s (.insert ev)) := by
  have hlen := h.length
  have hl2 : (s.sched ++ [ev]).length = s.stored.length + 2 := by simp [hlen]
  have hlast : last (s.sched ++ [ev]) = last s.sched + 1 := by
    unfold last
    omega
  have hup : UpTo (keyAt (s.sched ++ [ev])) (last (s.sched ++ [ev])) (last (s.sched ++ [ev])) := by
    rw [hlast]
    refine h.ordered.push fun i hi => ?_
    have : i < s.sched.length := by unfold last at hi; omega
    unfold keyAt get
    rw [List.getD_eq_getElem?_getD, List.getElem?_append_left this, ← List.getD_eq_getElem?_getD]
  obtain ⟨ho, hp, hl⟩ := bottomUp_spec (by omega) hup
  refine ⟨ho, ?_, ?_, h.uids.cons hu⟩
  · refine hp.trans ?_
    rw [List.tail_append_of_ne_nil (List.ne_nil_of_length_pos (by omega))]
    exact (h.contents.append_right [ev]).trans (List.perm_append_singleton ev s.stored)
  · show (bottomUp (s.sched ++ [ev])).length = (ev :: s.stored).length + 1
    rw [hl, hl2]
    rfl

theorem takeOut (h : Holds s) {i : ℕ} (h1 : 1 ≤ i) (hi : i < s.sched.length)
    (hfit : Fits s.sched i) (lastTs : ℕ) :
    Holds ⟨topDown (HeapScheduler.takeOut s.sched i) i, s.stored.erase (get s.sched i),
      lastTs⟩ := by
  obtain ⟨ho, hp, hl⟩ := topDown_takeOut h1 hi h.ordered hfit
  have hmem := h.mem_get h1 hi
  have hlen := h.length
  refine ⟨ho, ?_, ?_, h.uids.erase _⟩
  · exact ((hp.symm.trans h.contents).trans (List.perm_cons_erase hmem)).cons_inv
  · show (topDown _ i).length = (s.stored.erase _).length + 1
    rw [hl, List.length_erase_of_mem hmem]
    have := List.length_pos_of_mem hmem
    omega

theorem removeNext (h : Holds s) (hne : s.stored ≠ []) : Holds (impl.next s .removeNext) := by
  have hpos := List.length_pos_of_ne_nil hne
  have hlen := h.length
  exact h.takeOut (i := root) le_rfl (by unfold root; omega) rfl _

theorem findUid_eq (h : Holds s) {ev : Event} (he : ev ∈ s.stored) :
    ∃ i, findUid s.sched ev.key.uid = some i ∧ 1 ≤ i ∧ i < s.sched.length ∧
      get s.sched i = ev := by
  obtain ⟨j, h1, hj, hje⟩ := h.exists_get he
  cases hf : findUid s.sched ev.key.uid with
  | none =>
    have := List.find?_eq_none.mp hf j (List.mem_range'_1.mpr ⟨h1, by omega⟩)
    simp [hje] at this
  | some i =>
    have hmem := List.mem_range'_1.mp (List.mem_of_find?_eq_some hf)
    have huid := List.find?_some hf
    simp only [decide_eq_true_eq] at huid
    have hi : i < s.sched.length := by omega
    exact ⟨i, rfl, hmem.1, hi, h.uids.eq_of_uid (h.mem_get hmem.1 hi) he huid⟩

end Holds

/-- What the claim asks of a state: the base class's promise and the order of the heap. -/
structure PriorityQueue (s : SchedulerRun (List Event)) : Prop where
  serves : impl.Serves s
  ordered : Ordered s.sched

def leafFits (s : SchedulerRun (List Event)) : SchedulerOp → Prop
  | .remove ev => ∀ i ∈ findUid s.sched ev.key.uid, Fits s.sched i
  | _ => True

instance (s : SchedulerRun (List Event)) : (op : SchedulerOp) → Decidable (leafFits s op)
  | .remove ev => inferInstanceAs (Decidable (∀ i ∈ findUid s.sched ev.key.uid, Fits s.sched i))
  | .insert _ | .peekNext | .removeNext => inferInstanceAs (Decidable True)

theorem Holds.step {s : SchedulerRun (List Event)} (h : Holds s) (op : SchedulerOp)
    (he : SchedulerImpl.enabled s op) (hfit : leafFits s op) : Holds (impl.next s op) := by
  cases op with
  | insert ev => exact h.insert he
  | peekNext => exact h
  | removeNext => exact h.removeNext he
  | remove ev =>
    obtain ⟨i, hf, h1, hi, hget⟩ := h.findUid_eq he
    have ht := h.takeOut h1 hi (hfit i hf) s.lastTs
    rw [hget] at ht
    have hr : remove s.sched ev = topDown (HeapScheduler.takeOut s.sched i) i := by
      unfold remove
      rw [hf]
      rfl
    show Holds { s with sched := remove s.sched ev, stored := s.stored.erase ev }
    rw [hr]
    exact ht

theorem Holds.not_ordered {s : SchedulerRun (List Event)} (h : Holds s) {op : SchedulerOp}
    (he : SchedulerImpl.enabled s op) (hfit : ¬ leafFits s op) :
    ¬ Ordered (impl.next s op).sched := by
  cases op with
  | remove ev =>
    obtain ⟨i, hf, h1, hi, _⟩ := h.findUid_eq he
    have hnot : ¬ Fits s.sched i := by
      intro hfi
      refine hfit fun j hj => ?_
      rw [hf] at hj
      obtain rfl := Option.some.inj hj
      exact hfi
    show ¬ Ordered (remove s.sched ev)
    unfold remove
    rw [hf]
    exact topDown_takeOut_breaks h1 hi h.ordered hnot
  | _ => exact absurd trivial hfit

theorem Holds.of_reaches {ops : List SchedulerOp} {s : SchedulerRun (List Event)}
    (h : (impl.machine.restrict leafFits).Reaches { sched := init } ops s) : Holds s := by
  refine Machine.Reaches.invariant (P := Holds) Holds.initial ?_ h
  intro s op hs ⟨he, hfit⟩
  exact hs.step op he hfit

theorem heap_scheduler_priority_queue {ops : List SchedulerOp} {s : SchedulerRun (List Event)}
    (h : impl.machine.Reaches { sched := init } ops s) :
    (∀ before after, before ++ after = ops →
        PriorityQueue (impl.machine.exec { sched := init } before)) ↔
      (impl.machine.restrict leafFits).Reaches { sched := init } ops s := by
  constructor
  · intro hgood
    induction h with
    | nil => exact .nil
    | @snoc ops s op h he ih =>
      have hfits := ih fun before after hb =>
        hgood before (after ++ [op]) (by rw [← List.append_assoc, hb])
      refine hfits.snoc op ⟨he, ?_⟩
      by_contra hnot
      have hlast := (hgood (ops ++ [op]) [] (by simp)).ordered
      rw [Machine.exec_append, ← h.eq_exec] at hlast
      exact (Holds.of_reaches hfits).not_ordered he hnot hlast
  · rintro hfits before after rfl
    have hs := Holds.of_reaches hfits.of_append
    exact ⟨hs.serves, hs.ordered⟩

def fittingRun : List SchedulerOp :=
  [.insert ⟨1, 1, 1, 0⟩, .insert ⟨2, 2, 2, 0⟩, .insert ⟨3, 5, 3, 0⟩, .insert ⟨4, 3, 4, 0⟩,
    .remove ⟨2, 2, 2, 0⟩, .removeNext]

theorem heap_scheduler_priority_queue_fitting :
    (∀ before after, before ++ after = fittingRun →
        PriorityQueue (impl.machine.exec { sched := init } before)) ↔
      (impl.machine.restrict leafFits).Reaches { sched := init } fittingRun
        (impl.machine.exec { sched := init } fittingRun) :=
  heap_scheduler_priority_queue (Machine.Permits.reaches (by decide))

def misfitRun : List SchedulerOp :=
  [.insert ⟨1, 1, 1, 0⟩, .insert ⟨2, 10, 2, 0⟩, .insert ⟨3, 2, 3, 0⟩, .insert ⟨4, 11, 4, 0⟩,
    .insert ⟨5, 12, 5, 0⟩, .insert ⟨6, 3, 6, 0⟩, .insert ⟨7, 4, 7, 0⟩, .remove ⟨4, 11, 4, 0⟩]

theorem remove_breaks_heap_order :
    impl.machine.Permits { sched := init } misfitRun ∧
      (impl.machine.exec { sched := init } misfitRun).sched.map (fun e => e.key.ts) =
        [0, 1, 10, 2, 4, 12, 3] ∧
      ¬ PriorityQueue (impl.machine.exec { sched := init } misfitRun) := by
  refine ⟨by decide, by decide, ?_⟩
  intro h
  exact absurd (h.ordered 4 (by decide) (by decide)) (by decide)

end HeapScheduler
end NetGymSim.Core

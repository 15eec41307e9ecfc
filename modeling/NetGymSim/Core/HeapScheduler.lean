import NetGymSim.Core.Scheduler
import NetGymSim.Lib.HeapOrder

/-!
# `HeapScheduler`

The heap is the list `m_heap` with a wasted item at index 0. `BottomUp` and `TopDown`
keep what is stored; after an insertion and after `RemoveNext` they also restore the
order. `Remove` puts the last leaf into the hole and only calls `TopDown`, which
restores the order exactly when that leaf is not below the parent of the hole.
-/

namespace NetGymSim.Core
open NetGymSim.Lib
namespace HeapScheduler

def empty : Event := ⟨0, ⟨0, 0, 0⟩⟩

def init : List Event := [empty]

def get (heap : List Event) (id : ℕ) : Event := heap.getD id empty

def parent (id : ℕ) : ℕ := id / 2
def leftChild (id : ℕ) : ℕ := id * 2
def rightChild (id : ℕ) : ℕ := id * 2 + 1
def root : ℕ := 1
def isRoot (id : ℕ) : Bool := id = root
def last (heap : List Event) : ℕ := heap.length - 1
def isBottom (heap : List Event) (id : ℕ) : Bool := id ≥ heap.length
def exch (heap : List Event) (a b : ℕ) : List Event := (heap.set a (get heap b)).set b (get heap a)
def isLessStrictly (heap : List Event) (a b : ℕ) : Bool := (get heap a).key.lt (get heap b).key
def smallest (heap : List Event) (a b : ℕ) : ℕ := if isLessStrictly heap a b then a else b
def isEmpty (heap : List Event) : Bool := heap.length = 1

def bottomUpTurn (s : List Event × ℕ) : Turn (List Event × ℕ) :=
  if ¬ isRoot s.2 ∧ isLessStrictly s.1 s.2 (parent s.2) then
    .again (exch s.1 s.2 (parent s.2), parent s.2)
  else .done s

def bottomUp (heap : List Event) : List Event :=
  (loop bottomUpTurn (heap.length + 1) (heap, last heap)).1

def topDownTurn (s : List Event × ℕ) : Turn (List Event × ℕ) :=
  let heap := s.1
  let index := s.2
  let left := leftChild index
  let right := rightChild index
  if ¬ isBottom heap right then
    let tmp := smallest heap left right
    if isLessStrictly heap index tmp then .done s
    else .again (exch heap index tmp, tmp)
  else if isBottom heap index then .done s
  else if isBottom heap left then .done s
  else if isLessStrictly heap index left then .done s
  else .done (exch heap index left, index)

def topDown (heap : List Event) (start : ℕ) : List Event :=
  (loop topDownTurn (heap.length + 1) (heap, start)).1

def insert (heap : List Event) (ev : Event) : List Event := bottomUp (heap ++ [ev])

def peekNext (heap : List Event) : Event := get heap root

def removeNext (heap : List Event) : Event × List Event :=
  (get heap root, topDown (exch heap root (last heap)).dropLast root)

def findUid (heap : List Event) (uid : ℕ) : Option ℕ :=
  (List.range' 1 (heap.length - 1)).find? fun i => (get heap i).key.uid = uid

def remove (heap : List Event) (ev : Event) : List Event :=
  match findUid heap ev.key.uid with
  | some i => topDown (exch heap i (last heap)).dropLast i
  | none => heap

def impl : SchedulerImpl (List Event) where
  insert := insert
  isEmpty := isEmpty
  peekNext := peekNext
  removeNext := removeNext
  remove := remove
  contents := List.tail

/-! ### The key function of a heap -/

def keyAt (heap : List Event) (i : ℕ) : ℕ ×ₗ ℕ := (get heap i).rank

def Ordered (heap : List Event) : Prop := HeapOrdered (keyAt heap) (last heap)

theorem isLessStrictly_iff (heap : List Event) (a b : ℕ) :
    isLessStrictly heap a b ↔ keyAt heap a < keyAt heap b := EventKey.lt_iff _ _

theorem get_exch {heap : List Event} {a b : ℕ} (ha : a < heap.length) (hb : b < heap.length)
    (i : ℕ) : get (exch heap a b) i =
      if i = a then get heap b else if i = b then get heap a else get heap i := by
  unfold get exch
  simp only [List.getD_eq_getElem?_getD, List.getElem?_set, List.length_set]
  by_cases hib : b = i
  · subst hib
    by_cases hab : b = a
    · subst hab; simp [ha, get]
    · simp [hab, hb, get]
  · by_cases hia : a = i
    · subst hia; simp [hib, ha, get, List.getD_eq_getElem?_getD]
    · simp [hib, hia, Ne.symm hib, Ne.symm hia]

theorem keyAt_exch {heap : List Event} {a b : ℕ} (ha : a < heap.length) (hb : b < heap.length) :
    keyAt (exch heap a b) = exchange (keyAt heap) a b := by
  funext i
  unfold keyAt exchange
  rw [get_exch ha hb]
  split_ifs <;> rfl

@[simp] theorem length_exch (heap : List Event) (a b : ℕ) :
    (exch heap a b).length = heap.length := by simp [exch]

theorem tail_exch {heap : List Event} {a b : ℕ} (h1 : 1 ≤ a) (ha : a < heap.length) (h2 : 1 ≤ b)
    (hb : b < heap.length) : (exch heap a b).tail.Perm heap.tail := by
  have hne : heap ≠ [] := List.ne_nil_of_length_pos (by omega)
  obtain ⟨d, t, rfl⟩ := List.exists_cons_of_ne_nil hne
  obtain ⟨a, rfl⟩ : ∃ a', a = a' + 1 := ⟨a - 1, by omega⟩
  obtain ⟨b, rfl⟩ : ∃ b', b = b' + 1 := ⟨b - 1, by omega⟩
  have ha' : a < t.length := by simpa using ha
  have hb' : b < t.length := by simpa using hb
  have := List.set_set_perm ha' hb'
  simpa [exch, get, List.getD_eq_getElem?_getD, ha', hb'] using this

/-! ### The two loops -/

theorem bottomUp_spec {heap : List Event} (hlen : 2 ≤ heap.length)
    (h : UpTo (keyAt heap) (last heap) (last heap)) :
    Ordered (bottomUp heap) ∧ (bottomUp heap).tail.Perm heap.tail ∧
      (bottomUp heap).length = heap.length := by
  have hspec := loop_spec (b := bottomUpTurn)
    (P := fun s => UpTo (keyAt s.1) (last heap) s.2 ∧ 1 ≤ s.2 ∧ s.2 ≤ last heap ∧
      s.1.tail.Perm heap.tail ∧ s.1.length = heap.length)
    (Q := fun s => HeapOrdered (keyAt s.1) (last heap) ∧ s.1.tail.Perm heap.tail ∧
      s.1.length = heap.length) (fun s => s.2) ?_ ?_ (heap.length + 1) (s := (heap, last heap))
    ⟨h, by unfold last; omega, le_rfl, List.Perm.refl _, rfl⟩
    (by show last heap < _; unfold last; omega)
  · refine ⟨?_, hspec.2.1, hspec.2.2⟩
    unfold Ordered last bottomUp
    rw [hspec.2.2]
    exact hspec.1
  · rintro ⟨a, i⟩ s' ⟨hup, h1, hi, hperm, hl⟩ hb
    unfold bottomUpTurn at hb
    dsimp only at hb hup h1 hi hperm hl ⊢
    split_ifs at hb with hc
    obtain rfl := Turn.again.inj hb
    obtain ⟨hroot, hless⟩ := hc
    have h2 : 2 ≤ i := by
      have : i ≠ 1 := fun e => hroot (decide_eq_true e)
      omega
    rw [isLessStrictly_iff] at hless
    have hil : i < a.length := by unfold last at hi; omega
    have hstep := hup.step h2 hi hless
    refine ⟨⟨?_, ?_, ?_, ?_, ?_⟩, ?_⟩
    · rw [keyAt_exch hil (by unfold parent; omega)]
      exact hstep
    · show 1 ≤ i / 2; omega
    · show i / 2 ≤ last heap; omega
    · exact (tail_exch h1 hil (by unfold parent; omega) (by unfold parent; omega)).trans hperm
    · rw [length_exch]; exact hl
    · show i / 2 < i; omega
  · rintro ⟨a, i⟩ s' ⟨hup, h1, hi, hperm, hl⟩ hb
    unfold bottomUpTurn at hb
    dsimp only at hb hup h1 hi hperm hl ⊢
    split_ifs at hb with hc
    obtain rfl := Turn.done.inj hb
    refine ⟨hup.done ?_, hperm, hl⟩
    by_cases h2 : i ≤ 1
    · exact .inl h2
    · refine .inr (le_of_not_gt fun hlt => hc ⟨?_, (isLessStrictly_iff a i (parent i)).mpr hlt⟩)
      intro he
      have : i = 1 := of_decide_eq_true he
      omega

theorem smallest_spec (heap : List Event) {a b : ℕ} :
    (smallest heap a b = a ∨ smallest heap a b = b) ∧
      keyAt heap (smallest heap a b) ≤ keyAt heap a ∧
      keyAt heap (smallest heap a b) ≤ keyAt heap b := by
  unfold smallest
  split_ifs with h
  · rw [isLessStrictly_iff] at h
    exact ⟨.inl rfl, le_rfl, h.le⟩
  · rw [isLessStrictly_iff, not_lt] at h
    exact ⟨.inr rfl, h, le_rfl⟩

theorem topDownTurn_cases (heap : List Event) (index : ℕ) :
    (index * 2 + 1 < heap.length ∧
        keyAt heap index < keyAt heap (smallest heap (index * 2) (index * 2 + 1)) ∧
        topDownTurn (heap, index) = .done (heap, index)) ∨
      (index * 2 + 1 < heap.length ∧
        keyAt heap (smallest heap (index * 2) (index * 2 + 1)) ≤ keyAt heap index ∧
        topDownTurn (heap, index) = .again (exch heap index
          (smallest heap (index * 2) (index * 2 + 1)), smallest heap (index * 2) (index * 2 + 1))) ∨
      (heap.length ≤ index * 2 ∧ topDownTurn (heap, index) = .done (heap, index)) ∨
      (heap.length = index * 2 + 1 ∧ keyAt heap index < keyAt heap (index * 2) ∧
        topDownTurn (heap, index) = .done (heap, index)) ∨
      (heap.length = index * 2 + 1 ∧ keyAt heap (index * 2) ≤ keyAt heap index ∧
        topDownTurn (heap, index) = .done (exch heap index (index * 2), index)) := by
  by_cases hr : index * 2 + 1 < heap.length
  · have hb : ¬ heap.length ≤ index * 2 + 1 := by omega
    by_cases hl : isLessStrictly heap index (smallest heap (index * 2) (index * 2 + 1))
    · refine .inl ⟨hr, (isLessStrictly_iff _ _ _).mp hl, ?_⟩
      simp [topDownTurn, isBottom, leftChild, rightChild, hb, hl]
    · refine .inr (.inl ⟨hr, not_lt.mp (mt (isLessStrictly_iff _ _ _).mpr hl), ?_⟩)
      simp [topDownTurn, isBottom, leftChild, rightChild, hb, hl]
  · have hb : heap.length ≤ index * 2 + 1 := by omega
    by_cases hleft : heap.length ≤ index * 2
    · refine .inr (.inr (.inl ⟨hleft, ?_⟩))
      simp [topDownTurn, isBottom, leftChild, rightChild, hb, hleft]
    · have hi : ¬ heap.length ≤ index := by omega
      have hone : heap.length = index * 2 + 1 := by omega
      by_cases hl : isLessStrictly heap index (index * 2)
      · refine .inr (.inr (.inr (.inl ⟨hone, (isLessStrictly_iff _ _ _).mp hl, ?_⟩)))
        simp [topDownTurn, isBottom, leftChild, rightChild, hb, hi, hleft, hl]
      · have hnot := not_lt.mp (mt (isLessStrictly_iff _ _ _).mpr hl)
        refine .inr (.inr (.inr (.inr ⟨hone, hnot, ?_⟩)))
        simp [topDownTurn, isBottom, leftChild, rightChild, hb, hi, hleft, hl]

theorem topDown_spec {heap : List Event} {start : ℕ} (h1 : 1 ≤ start)
    (h : DownFrom (keyAt heap) (last heap) start) :
    Ordered (topDown heap start) ∧ (topDown heap start).tail.Perm heap.tail ∧
      (topDown heap start).length = heap.length := by
  have hspec := loop_spec (b := topDownTurn)
    (P := fun s => DownFrom (keyAt s.1) (last heap) s.2 ∧ 1 ≤ s.2 ∧
      s.1.tail.Perm heap.tail ∧ s.1.length = heap.length)
    (Q := fun s => HeapOrdered (keyAt s.1) (last heap) ∧ s.1.tail.Perm heap.tail ∧
      s.1.length = heap.length) (fun s => heap.length - s.2) ?_ ?_ (heap.length + 1)
    (s := (heap, start)) ⟨h, h1, List.Perm.refl _, rfl⟩ (by show heap.length - start < _; omega)
  · refine ⟨?_, hspec.2.1, hspec.2.2⟩
    unfold Ordered last topDown
    rw [hspec.2.2]
    exact hspec.1
  · rintro ⟨a, i⟩ s' ⟨hdown, h1, hperm, hl⟩ hb
    dsimp only at hdown h1 hperm hl ⊢
    rcases topDownTurn_cases a i with ⟨_, _, he⟩ | ⟨hr, hle, he⟩ | ⟨_, he⟩ | ⟨_, _, he⟩ | ⟨_, _, he⟩
    case inr.inl =>
      rw [he] at hb
      obtain rfl := Turn.again.inj hb
      obtain ⟨hchild, hleft, hright⟩ := smallest_spec a (a := i * 2) (b := i * 2 + 1)
      generalize smallest a (i * 2) (i * 2 + 1) = c at hchild hleft hright hle ⊢
      have hcl : c < a.length := by omega
      have hstep := hdown.step (c := c) h1 (by omega) (by unfold last; omega) hle (by
        intro d _ hd
        rcases (by omega : d = i * 2 ∨ d = i * 2 + 1) with rfl | rfl
        · exact hleft
        · exact hright)
      refine ⟨⟨?_, ?_, ?_, ?_⟩, ?_⟩
      · rw [keyAt_exch (by omega) hcl]
        exact hstep
      · show 1 ≤ c; omega
      · exact (tail_exch h1 (by omega) (by omega) hcl).trans hperm
      · rw [length_exch]; exact hl
      · show heap.length - c < heap.length - i; omega
    all_goals rw [he] at hb; cases hb
  · rintro ⟨a, i⟩ s' ⟨hdown, h1, hperm, hl⟩ hb
    dsimp only at hdown h1 hperm hl ⊢
    have hlast : last heap = a.length - 1 := by unfold last; rw [hl]
    rcases topDownTurn_cases a i with ⟨_, hlt, he⟩ | ⟨_, _, he⟩ | ⟨hno, he⟩ | ⟨hone, hlt, he⟩ |
      ⟨hone, hle, he⟩ <;> rw [he] at hb
    · obtain rfl := Turn.done.inj hb
      obtain ⟨_, hl1, hr1⟩ := smallest_spec a (a := i * 2) (b := i * 2 + 1)
      refine ⟨hdown.done ?_, hperm, hl⟩
      intro d _ _ hd
      rcases (by omega : d = i * 2 ∨ d = i * 2 + 1) with rfl | rfl
      · exact hlt.le.trans hl1
      · exact hlt.le.trans hr1
    · cases hb
    · obtain rfl := Turn.done.inj hb
      exact ⟨hdown.done fun d _ hd1 hd => by omega, hperm, hl⟩
    · obtain rfl := Turn.done.inj hb
      refine ⟨hdown.done fun d _ hd1 hd => ?_, hperm, hl⟩
      obtain rfl : d = i * 2 := by omega
      exact hlt.le
    · obtain rfl := Turn.done.inj hb
      have hstep := hdown.step (c := i * 2) h1 (by omega) (by omega) hle (by
        intro d hd1 hd
        obtain rfl : d = i * 2 := by omega
        exact le_rfl)
      refine ⟨?_, (tail_exch h1 (by omega) (by omega) (by omega)).trans hperm,
        by rw [length_exch]; exact hl⟩
      rw [keyAt_exch (by omega) (by omega)]
      exact hstep.done fun d _ hd1 hd => by omega

theorem topDown_of_lt {heap : List Event} {start : ℕ}
    (h : ∀ i, i ≤ last heap → i / 2 = start → keyAt heap start < keyAt heap i) :
    topDown heap start = heap := by
  have hturn : topDownTurn (heap, start) = .done (heap, start) := by
    rcases topDownTurn_cases heap start with ⟨_, _, he⟩ | ⟨hr, hle, he⟩ | ⟨_, he⟩ | ⟨_, _, he⟩ |
      ⟨hone, hle, he⟩
    · exact he
    · obtain ⟨hc, _, _⟩ := smallest_spec heap (a := start * 2) (b := start * 2 + 1)
      exact absurd (h _ (by unfold last; omega) (by omega)) (not_lt.mpr hle)
    · exact he
    · exact he
    · exact absurd (h (start * 2) (by unfold last; omega) (by omega)) (not_lt.mpr hle)
  unfold topDown
  simp only [loop, hturn]

end HeapScheduler
end NetGymSim.Core

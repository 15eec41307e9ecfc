import Mathlib.Data.List.Basic
import Mathlib.Data.Nat.Basic
import Mathlib.Order.Basic
import Mathlib.Tactic.Common
import Mathlib.Algebra.Order.Ring.Nat

/-!
# Writing under a bound

A sink holds the bytes written so far with their places. Its counter is compared with a bound
before anything is written; a writer that finds no room gives up and leaves what it wrote. When
the counter runs behind the place, the bound says less than the place, and the writes of a
sequence of sections leave the bound just when they are not `Bounded`.
-/

namespace NetGymSim.Lib

def furthest : List (ℕ × ℕ) → ℕ
  | [] => 0
  | x :: l => max (x.2 + 1) (furthest l)

theorem furthest_append (l l' : List (ℕ × ℕ)) :
    furthest (l ++ l') = max (furthest l) (furthest l') := by
  induction l with
  | nil => rw [List.nil_append, furthest, Nat.zero_max]
  | cons x l ih => rw [List.cons_append, furthest, furthest, ih, Nat.max_assoc]

theorem furthest_le {l : List (ℕ × ℕ)} {bound : ℕ} :
    furthest l ≤ bound ↔ ∀ x ∈ l, x.2 < bound := by
  induction l with
  | nil => simp [furthest]
  | cons x l ih => rw [furthest, Nat.max_le, ih, List.forall_mem_cons, Nat.succ_le_iff]

theorem furthest_zipIdx (bytes : List ℕ) (p : ℕ) :
    furthest (bytes.zipIdx p) = if bytes = [] then 0 else p + bytes.length := by
  induction bytes generalizing p with
  | nil => rfl
  | cons b bytes ih =>
    rw [List.zipIdx_cons, furthest, ih, if_neg (List.cons_ne_nil b bytes), List.length_cons]
    split_ifs with h
    · simp [h]
    · omega

/-- A byte is written with its place. -/
structure Sink where
  written : List (ℕ × ℕ) := []
  p : ℕ := 0
  size : ℕ := 0

namespace Sink

def top (s : Sink) : ℕ := furthest s.written

def writeAt (s : Sink) (place : ℕ) (bytes : List ℕ) : Sink :=
  { s with written := s.written ++ bytes.zipIdx place }

/-- The bytes take `span` places when the bound leaves as many. -/
def put (maxSize span : ℕ) (bytes : List ℕ) (s : Sink) : Except Sink Sink :=
  if s.size + span ≤ maxSize then
    .ok { s.writeAt s.p bytes with p := s.p + span, size := s.size + span }
  else .error s

structure Filled (s s' : Sink) (span reach : ℕ) : Prop where
  place : s'.p = s.p + span
  count : s'.size = s.size + span
  top : s'.top = s.p + reach

variable {maxSize span reach span' reach' : ℕ} {bytes : List ℕ} {s s' s'' : Sink}

theorem top_writeAt (s : Sink) (place : ℕ) (bytes : List ℕ) :
    (s.writeAt place bytes).top = max s.top (if bytes = [] then 0 else place + bytes.length) := by
  rw [top, writeAt, furthest_append, furthest_zipIdx, top]

theorem put_filled (bytes : List ℕ) (hroom : s.size + span ≤ maxSize) (htop : s.top ≤ s.p)
    (hb : bytes ≠ []) :
    ∃ s', s.put maxSize span bytes = .ok s' ∧ Filled s s' span bytes.length := by
  refine ⟨_, if_pos hroom, rfl, rfl, ?_⟩
  show (s.writeAt s.p bytes).top = s.p + bytes.length
  rw [top_writeAt, if_neg hb, Nat.max_eq_right (htop.trans (Nat.le_add_right _ _))]

theorem Filled.put (h : Filled s s' span reach) (bytes : List ℕ) (hle : reach ≤ span)
    (hroom : s.size + span + span' ≤ maxSize) (hb : bytes = [] → reach = span) :
    ∃ s'', s'.put maxSize span' bytes = .ok s'' ∧
      Filled s s'' (span + span') (span + bytes.length) := by
  have hp := h.place
  have hcount := h.count
  have htop := h.top
  refine ⟨_, if_pos (by omega), ?_, ?_, ?_⟩
  · show s'.p + span' = _
    omega
  · show s'.size + span' = _
    omega
  · show (s'.writeAt s'.p bytes).top = _
    rw [top_writeAt]
    split_ifs with hempty
    · have := hb hempty
      rw [hempty, List.length_nil]
      omega
    · omega

theorem Filled.writeAt (h : Filled s s' span reach) (place : ℕ) (bytes : List ℕ)
    (hplace : place + bytes.length ≤ s.p + reach) :
    Filled s (s'.writeAt place bytes) span reach where
  place := h.place
  count := h.count
  top := by
    have htop := h.top
    rw [top_writeAt]
    split_ifs <;> omega

theorem Filled.trans (h : Filled s s' span reach) (h' : Filled s' s'' span' reach') :
    Filled s s'' (span + span') (span + reach') where
  place := by rw [h'.place, h.place, Nat.add_assoc]
  count := by rw [h'.count, h.count, Nat.add_assoc]
  top := by rw [h'.top, h.place, Nat.add_assoc]

end Sink

/-- What a section adds to the counter, how far it writes and how many places it takes. -/
structure Extent where
  count : ℕ
  reach : ℕ
  span : ℕ

/-- Every section that the counter lets through is written below the bound. -/
def Bounded (maxSize : ℕ) : ℕ → ℕ → List Extent → Prop
  | _, _, [] => True
  | size, p, x :: xs => size + x.count ≤ maxSize →
      p + x.reach ≤ maxSize ∧ Bounded maxSize (size + x.count) (p + x.span) xs

instance Bounded.decidable (maxSize : ℕ) :
    (size p : ℕ) → (xs : List Extent) → Decidable (Bounded maxSize size p xs)
  | _, _, [] => inferInstanceAs (Decidable True)
  | size, p, x :: xs =>
      have := Bounded.decidable maxSize (size + x.count) (p + x.span) xs
      inferInstanceAs (Decidable (_ → _ ∧ _))

def Writes (maxSize : ℕ) (x : Extent) (f : Sink → Except Sink Sink) : Prop :=
  ∀ s : Sink, s.top ≤ s.p → if s.size + x.count ≤ maxSize then
    ∃ s', f s = .ok s' ∧ s'.size = s.size + x.count ∧ s'.p = s.p + x.span ∧
      s'.top = s.p + x.reach
  else f s = .error s

def runAll (fs : List (Sink → Except Sink Sink)) (s : Sink) : Except Sink Sink :=
  fs.foldlM (fun s f => f s) s

def Sink.final : Except Sink Sink → Sink
  | .ok s => s
  | .error s => s

section Sections
variable {maxSize : ℕ} {fs : List (Sink → Except Sink Sink)} {xs : List Extent}

theorem runAll_ok (h : List.Forall₂ (Writes maxSize) xs fs) (hreach : ∀ x ∈ xs, x.reach ≤ x.span)
    {s : Sink} (htop : s.top ≤ s.p) (hsize : s.size ≤ maxSize) :
    (∃ s', runAll fs s = .ok s') ↔ s.size + (xs.map Extent.count).sum ≤ maxSize := by
  induction h generalizing s with
  | nil => exact iff_of_true ⟨s, rfl⟩ hsize
  | @cons x f xs fs hf hfs ih =>
    have hrun := hf s htop
    rw [List.map_cons, List.sum_cons]
    split_ifs at hrun with hroom
    · obtain ⟨s', hs', hsize', hp, htop'⟩ := hrun
      have hx := hreach x List.mem_cons_self
      have hstep : runAll (f :: fs) s = runAll fs s' := by
        rw [runAll, List.foldlM_cons, hs']
        rfl
      rw [hstep, ih (fun y hy => hreach y (List.mem_cons_of_mem x hy)) (by omega) (by omega),
        hsize', Nat.add_assoc]
    · have hstep : runAll (f :: fs) s = .error s := by
        rw [runAll, List.foldlM_cons, hrun]
        rfl
      rw [hstep]
      apply iff_of_false
      · intro h
        obtain ⟨s', hs'⟩ := h
        exact absurd hs' nofun
      · omega

theorem runAll_top (h : List.Forall₂ (Writes maxSize) xs fs) (hreach : ∀ x ∈ xs, x.reach ≤ x.span)
    {s : Sink} (htop : s.top ≤ s.p) :
    (Sink.final (runAll fs s)).top ≤ maxSize ↔
      s.top ≤ maxSize ∧ Bounded maxSize s.size s.p xs := by
  induction h generalizing s with
  | nil => exact (and_iff_left trivial).symm
  | @cons x f xs fs hf hfs ih =>
    have hrun := hf s htop
    split_ifs at hrun with hroom
    · obtain ⟨s', hs', hsize, hp, htop'⟩ := hrun
      have hx := hreach x List.mem_cons_self
      have hstep : runAll (f :: fs) s = runAll fs s' := by
        rw [runAll, List.foldlM_cons, hs']
        rfl
      rw [hstep, ih (fun y hy => hreach y (List.mem_cons_of_mem x hy)) (by omega), hsize, hp,
        htop', Bounded, imp_iff_right hroom]
      constructor
      · intro h
        exact ⟨by omega, h⟩
      · exact And.right
    · have hstep : runAll (f :: fs) s = .error s := by
        rw [runAll, List.foldlM_cons, hrun]
        rfl
      rw [hstep, Bounded]
      constructor
      · intro h
        exact ⟨h, fun hin => absurd hin hroom⟩
      · exact And.left

theorem Bounded.of_span (hreach : ∀ x ∈ xs, x.reach ≤ x.span) {size p : ℕ}
    (hroom : p + (xs.map Extent.span).sum ≤ maxSize) : Bounded maxSize size p xs := by
  induction xs generalizing size p with
  | nil => trivial
  | cons x xs ih =>
    intro _
    rw [List.map_cons, List.sum_cons] at hroom
    have hx := hreach x List.mem_cons_self
    exact ⟨by omega, ih (fun y hy => hreach y (List.mem_cons_of_mem x hy)) (by omega)⟩

end Sections
end NetGymSim.Lib

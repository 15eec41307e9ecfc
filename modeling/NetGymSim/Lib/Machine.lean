import Mathlib.Data.List.Basic
import Mathlib.Data.List.Induction
import Mathlib.Tactic.Common
import Mathlib.Algebra.Order.Ring.Nat

/-!
# Machines, runs and bounded loops

A machine is a guarded step function. `Reaches` lists the events of a run from
the start state, so that an invariant is proved once per event and lifted by
`Reaches.invariant`. A `while` loop of the source is `loop body fuel`; its turn
says whether the loop goes round again or is left, and `loop_spec` asks for a
measure that the given fuel exceeds, so that the loop always leaves by `done`.
-/

namespace NetGymSim.Lib

structure Machine (σ ε : Type*) where
  enabled : σ → ε → Prop
  next : σ → ε → σ

inductive Machine.Reaches {σ ε : Type*} (M : Machine σ ε) (start : σ) : List ε → σ → Prop
  | nil : M.Reaches start [] start
  | snoc {es : List ε} {s : σ} (e : ε) :
      M.Reaches start es s → M.enabled s e → M.Reaches start (es ++ [e]) (M.next s e)

namespace Machine
variable {σ ε : Type*} {M : Machine σ ε} {start : σ}

theorem Reaches.invariant {P : σ → Prop} (init : P start)
    (step : ∀ s e, P s → M.enabled s e → P (M.next s e))
    {es : List ε} {s : σ} (h : M.Reaches start es s) : P s := by
  induction h with
  | nil => exact init
  | snoc e _ he ih => exact step _ e ih he

/-- A forward simulation: every run of one machine is answered by the same events of the other. -/
theorem Reaches.simulate {τ : Type*} {N : Machine τ ε} {start' : τ} {R : σ → τ → Prop}
    (init : R start start')
    (step : ∀ s t e, R s t → M.enabled s e → N.enabled t e ∧ R (M.next s e) (N.next t e))
    {es : List ε} {s : σ} (h : M.Reaches start es s) :
    ∃ t, N.Reaches start' es t ∧ R s t := by
  induction h with
  | nil => exact ⟨start', .nil, init⟩
  | snoc e _ he ih =>
    obtain ⟨t, ht, hR⟩ := ih
    obtain ⟨he', hR'⟩ := step _ t e hR he
    exact ⟨_, ht.snoc e he', hR'⟩

/-- The machine that takes only the steps meeting `C` at the state they start from. -/
def restrict (M : Machine σ ε) (C : σ → ε → Prop) : Machine σ ε :=
  ⟨fun s e => M.enabled s e ∧ C s e, M.next⟩

theorem Reaches.of_restrict {C : σ → ε → Prop} {es : List ε} {s : σ}
    (h : (M.restrict C).Reaches start es s) : M.Reaches start es s := by
  induction h with
  | nil => exact .nil
  | snoc e _ he ih => exact ih.snoc e he.1

/-- A finite list of events applied without looking at the guards. -/
def exec (M : Machine σ ε) (s : σ) (es : List ε) : σ := es.foldl M.next s

theorem exec_append (s : σ) (es fs : List ε) :
    M.exec s (es ++ fs) = M.exec (M.exec s es) fs := List.foldl_append

theorem Reaches.eq_exec {es : List ε} {s : σ} (h : M.Reaches start es s) :
    s = M.exec start es := by
  induction h with
  | nil => rfl
  | snoc e _ _ ih => rw [exec_append, ← ih]; rfl

theorem Reaches.append {es fs : List ε} {s t : σ} (h : M.Reaches start es s)
    (h' : M.Reaches s fs t) : M.Reaches start (es ++ fs) t := by
  induction h' with
  | nil => simpa using h
  | snoc e _ he ih => rw [← List.append_assoc]; exact ih.snoc e he

theorem Reaches.last {es : List ε} {e : ε} {s : σ} (h : M.Reaches start (es ++ [e]) s) :
    ∃ t, M.Reaches start es t ∧ M.enabled t e ∧ s = M.next t e := by
  generalize hl : es ++ [e] = l at h
  cases h with
  | nil => simp at hl
  | snoc e' h he =>
    obtain ⟨rfl, he'⟩ := List.append_inj' hl rfl
    obtain rfl := List.singleton_inj.mp he'
    exact ⟨_, h, he, rfl⟩

theorem Reaches.of_append {es fs : List ε} {s : σ} (h : M.Reaches start (es ++ fs) s) :
    M.Reaches start es (M.exec start es) := by
  induction fs using List.reverseRecOn generalizing s with
  | nil =>
    rw [List.append_nil] at h
    rwa [← h.eq_exec]
  | append_singleton fs f ih =>
    rw [← List.append_assoc] at h
    obtain ⟨t, ht, _⟩ := h.last
    exact ih ht

def Permits (M : Machine σ ε) : σ → List ε → Prop
  | _, [] => True
  | s, e :: es => M.enabled s e ∧ M.Permits (M.next s e) es

instance Permits.decidable (M : Machine σ ε) [∀ s e, Decidable (M.enabled s e)] :
    (s : σ) → (es : List ε) → Decidable (M.Permits s es)
  | _, [] => inferInstanceAs (Decidable True)
  | s, e :: es =>
      have := Permits.decidable M (M.next s e) es
      inferInstanceAs (Decidable (M.enabled s e ∧ M.Permits (M.next s e) es))

theorem Permits.reaches {s : σ} {es : List ε} (h : M.Permits s es) :
    M.Reaches s es (M.exec s es) := by
  induction es generalizing s with
  | nil => exact .nil
  | cons e es ih => exact (Reaches.nil.snoc e h.1).append (ih h.2)

theorem Permits.of_free (free : ∀ s e, M.enabled s e) (s : σ) (es : List ε) : M.Permits s es := by
  induction es generalizing s with
  | nil => trivial
  | cons e es ih => exact ⟨free s e, ih (M.next s e)⟩

theorem Permits.of_prefix {s : σ} {done es : List ε} (hd : done <+: es) (h : M.Permits s es) :
    M.Permits s done := by
  induction es generalizing s done with
  | nil => rwa [List.prefix_nil.mp hd]
  | cons e es ih =>
    cases done with
    | nil => trivial
    | cons d done =>
      obtain ⟨rfl, hdone⟩ := List.cons_prefix_cons.mp hd
      exact ⟨h.1, ih hdone h.2⟩

/-- A step that meets `C` keeps `P`, and any other leaves even the weaker `P'`. Then a run meets
`C` at every step just when `P'` holds after each of them. -/
theorem Permits.restrict_iff_weak {C : σ → ε → Prop} {P P' : σ → Prop}
    (weaken : ∀ s, P s → P' s)
    (keep : ∀ s e, P s → M.enabled s e → C s e → P (M.next s e))
    (leave : ∀ s e, P s → M.enabled s e → ¬ C s e → ¬ P' (M.next s e)) {s : σ} (hP : P s)
    {es : List ε} (hes : M.Permits s es) :
    (M.restrict C).Permits s es ↔ ∀ done, done <+: es → P' (M.exec s done) := by
  induction es generalizing s with
  | nil =>
    refine iff_of_true trivial fun done hd => ?_
    rw [List.prefix_nil.mp hd]
    exact weaken s hP
  | cons e es ih =>
    constructor
    · intro h done hd
      cases done with
      | nil => exact weaken s hP
      | cons d done =>
        obtain ⟨rfl, hdone⟩ := List.cons_prefix_cons.mp hd
        exact (ih (keep s d hP hes.1 h.1.2) hes.2).mp h.2 done hdone
    · intro h
      have hnext : P' (M.next s e) := h [e] (List.cons_prefix_cons.mpr ⟨rfl, List.nil_prefix⟩)
      have hC : C s e := by
        by_contra hno
        exact leave s e hP hes.1 hno hnext
      refine ⟨⟨hes.1, hC⟩, (ih (keep s e hP hes.1 hC) hes.2).mpr ?_⟩
      intro done hd
      exact h (e :: done) (List.cons_prefix_cons.mpr ⟨rfl, hd⟩)

/-- When `C` is exactly what lets a step keep `P`, a run meets `C` at every step just when `P`
holds after each of them. `Q` is what every step keeps. -/
theorem Permits.restrict_iff {C : σ → ε → Prop} {P Q : σ → Prop}
    (keep : ∀ s e, Q s → M.enabled s e → Q (M.next s e))
    (step : ∀ s e, Q s → P s → M.enabled s e → (P (M.next s e) ↔ C s e)) {s : σ} (hQ : Q s)
    (hP : P s) {es : List ε} (hes : M.Permits s es) :
    (M.restrict C).Permits s es ↔ ∀ done, done <+: es → P (M.exec s done) := by
  apply Permits.restrict_iff_weak (P := fun s => Q s ∧ P s) (fun s h => h.2) _ _ ⟨hQ, hP⟩ hes
  · intro s e h he hC
    exact ⟨keep s e h.1 he, (step s e h.1 h.2 he).mpr hC⟩
  · intro s e h he hno hnext
    exact hno ((step s e h.1 h.2 he).mp hnext)

/-- A run meets `C` at every step when it does so behind every prefix. -/
theorem Permits.restrict_iff_steps {C : σ → ε → Prop} {s : σ} {es : List ε}
    (hes : M.Permits s es) :
    (M.restrict C).Permits s es ↔
      ∀ done e, done ++ [e] <+: es → C (M.exec s done) e := by
  induction es generalizing s with
  | nil =>
    refine iff_of_true trivial fun done e hd => ?_
    simp at hd
  | cons e es ih =>
    constructor
    · intro h done f hd
      cases done with
      | nil =>
        obtain ⟨rfl, -⟩ := List.cons_prefix_cons.mp hd
        exact h.1.2
      | cons d done =>
        obtain ⟨rfl, hdone⟩ := List.cons_prefix_cons.mp hd
        exact (ih hes.2).mp h.2 done f hdone
    · intro h
      refine ⟨⟨hes.1, h [] e (List.cons_prefix_cons.mpr ⟨rfl, List.nil_prefix⟩)⟩, ?_⟩
      apply (ih hes.2).mpr
      intro done f hd
      exact h (e :: done) f (List.cons_prefix_cons.mpr ⟨rfl, hd⟩)

theorem permits_restrict_iff {C : σ → ε → Prop} {P Q : σ → Prop}
    (free : ∀ s e, M.enabled s e) (keep : ∀ s e, Q s → Q (M.next s e))
    (step : ∀ s e, Q s → P s → (P (M.next s e) ↔ C s e)) {s : σ} (hQ : Q s) (hP : P s)
    (es : List ε) :
    (M.restrict C).Permits s es ↔ ∀ done, done <+: es → P (M.exec s done) := by
  apply Permits.restrict_iff (fun s e hQ _ => keep s e hQ) _ hQ hP (.of_free free s es)
  intro s e hQ hP _
  exact step s e hQ hP

instance (M : Machine σ ε) (C : σ → ε → Prop) (s : σ) (e : ε) [Decidable (M.enabled s e)]
    [Decidable (C s e)] : Decidable ((M.restrict C).enabled s e) :=
  inferInstanceAs (Decidable (M.enabled s e ∧ C s e))

end Machine

inductive Turn (σ : Type*)
  | again (s : σ)
  | done (s : σ)

def loop {σ : Type*} (body : σ → Turn σ) : ℕ → σ → σ
  | 0, s => s
  | fuel + 1, s =>
      match body s with
      | .again s' => loop body fuel s'
      | .done s' => s'

variable {σ : Type*} {b : σ → Turn σ}

theorem loop_spec {P Q : σ → Prop} (μ : σ → ℕ)
    (again : ∀ s s', P s → b s = .again s' → P s' ∧ μ s' < μ s)
    (done : ∀ s s', P s → b s = .done s' → Q s')
    (fuel : ℕ) {s : σ} (hP : P s) (hμ : μ s < fuel) : Q (loop b fuel s) := by
  induction fuel generalizing s with
  | zero => omega
  | succ fuel ih =>
    cases hb : b s with
    | again s' =>
      obtain ⟨hP', hlt⟩ := again s s' hP hb
      simpa only [loop, hb] using ih hP' (by omega)
    | done s' => simpa only [loop, hb] using done s s' hP hb

theorem loop_counted {P : ℕ → σ → Prop} {Q : σ → Prop} (n : ℕ)
    (again : ∀ j s s', j < n → P j s → b s = .again s' → j + 1 < n ∧ P (j + 1) s')
    (done : ∀ j s s', j < n → P j s → b s = .done s' → Q s')
    (fuel : ℕ) {j : ℕ} {s : σ} (hj : j < n) (hP : P j s) (hf : n ≤ j + fuel) :
    Q (loop b fuel s) := by
  induction fuel generalizing j s with
  | zero => omega
  | succ fuel ih =>
    cases hb : b s with
    | again s' =>
      obtain ⟨hj', hP'⟩ := again j s s' hj hP hb
      simpa only [loop, hb] using ih hj' hP' (by omega)
    | done s' => simpa only [loop, hb] using done j s s' hj hP hb

theorem loop_invariant {P : σ → Prop}
    (again : ∀ s s', P s → b s = .again s' → P s')
    (done : ∀ s s', P s → b s = .done s' → P s')
    (fuel : ℕ) {s : σ} (hP : P s) : P (loop b fuel s) := by
  induction fuel generalizing s with
  | zero => exact hP
  | succ fuel ih =>
    cases hb : b s with
    | again s' => simpa only [loop, hb] using ih (again s s' hP hb)
    | done s' => simpa only [loop, hb] using done s s' hP hb

end NetGymSim.Lib

/-!
## While loops

`LoopEnds guard safe body s t` says that the loop entered in `s` is left in `t` and that each of
its turns started in a state that is `safe`. A loop that goes on forever, or that reaches an
unsafe turn, is left nowhere.
-/

namespace NetGymSim.Lib

inductive LoopEnds {σ : Type*} (guard safe : σ → Prop) (body : σ → σ) : σ → σ → Prop
  | stop {s : σ} : ¬ guard s → LoopEnds guard safe body s s
  | turn {s t : σ} : guard s → safe s → LoopEnds guard safe body (body s) t →
      LoopEnds guard safe body s t

namespace LoopEnds
variable {σ : Type*} {guard safe : σ → Prop} {body : σ → σ} {s t t' : σ}

theorem unique (h : LoopEnds guard safe body s t) (h' : LoopEnds guard safe body s t') :
    t = t' := by
  induction h with
  | stop hs =>
    cases h' with
    | stop _ => rfl
    | turn hg _ _ => exact absurd hg hs
  | turn hg _ _ ih =>
    cases h' with
    | stop hs => exact absurd hg hs
    | turn _ _ h' => exact ih h'

theorem invariant {P : σ → Prop} (step : ∀ s, P s → guard s → safe s → P (body s)) (hs : P s)
    (h : LoopEnds guard safe body s t) : P t := by
  induction h with
  | stop _ => exact hs
  | turn hg hsafe _ ih => exact ih (step _ hs hg hsafe)

end LoopEnds
end NetGymSim.Lib

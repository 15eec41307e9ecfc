import Mathlib.Data.List.Induction
import Mathlib.Tactic.Common

/-!
# Loops that may fail

A loop over a list whose turns return `Except`. The invariant speaks of the state and of the
turns that are still to come.
-/

namespace NetGymSim.Lib
variable {ε α β : Type}

theorem bind_eq_ok {x : Except ε α} {f : α → Except ε β} {b : β} :
    (x >>= f) = .ok b ↔ ∃ a, x = .ok a ∧ f a = .ok b := by
  cases x with
  | error e => simp [bind, Except.bind]
  | ok a => simp [bind, Except.bind]

theorem pure_eq_ok {a b : α} : (pure a : Except ε α) = .ok b ↔ a = b := by
  simp [pure, Except.pure]

theorem exists_ok {x : Except ε α} (h : x.isOk = true) : ∃ a, x = .ok a := by
  cases x with
  | error e => cases h
  | ok a => exact ⟨a, rfl⟩

theorem map_eq_ok {x : Except ε α} {f : α → β} {b : β} :
    x.map f = .ok b ↔ ∃ a, x = .ok a ∧ f a = b := by
  cases x with
  | error e => simp [Except.map]
  | ok a => simp [Except.map]

theorem mapError_eq_ok {ε' : Type} {x : Except ε α} {f : ε → ε'} {a : α} :
    x.mapError f = .ok a ↔ x = .ok a := by
  cases x with
  | error e => simp [Except.mapError]
  | ok b => simp [Except.mapError]

theorem mapM_length {f : α → Except ε β} {l : List α} {l' : List β} (h : l.mapM f = .ok l') :
    l'.length = l.length := by
  induction l generalizing l' with
  | nil =>
    cases h
    rfl
  | cons a rest ih =>
    simp only [List.mapM_cons, bind_eq_ok] at h
    obtain ⟨b, -, rest', hrest, h⟩ := h
    cases pure_eq_ok.mp h
    rw [List.length_cons, List.length_cons, ih hrest]

theorem mapM_eq_map {f : α → Except ε β} {g : α → β} {l : List α}
    (h : ∀ a ∈ l, f a = .ok (g a)) : l.mapM f = .ok (l.map g) := by
  induction l with
  | nil => rfl
  | cons a rest ih =>
    rw [List.mapM_cons, h a List.mem_cons_self, ih fun b hb => h b (List.mem_cons_of_mem _ hb)]
    rfl

theorem mapM_ok {f : α → Except ε β} {l : List α} {l' : List β} (h : l.mapM f = .ok l') {a : α}
    (ha : a ∈ l) : ∃ b, f a = .ok b := by
  induction l generalizing l' with
  | nil => cases ha
  | cons c rest ih =>
    simp only [List.mapM_cons, bind_eq_ok] at h
    obtain ⟨b, hb, rest', hrest, -⟩ := h
    rcases List.mem_cons.mp ha with rfl | ha
    · exact ⟨b, hb⟩
    · exact ih hrest ha

theorem mapM_mem {f : α → Except ε β} {l : List α} {l' : List β} (h : l.mapM f = .ok l') {b : β}
    (hb : b ∈ l') : ∃ a ∈ l, f a = .ok b := by
  induction l generalizing l' with
  | nil =>
    cases h
    cases hb
  | cons a rest ih =>
    simp only [List.mapM_cons, bind_eq_ok] at h
    obtain ⟨c, hc, rest', hrest, h⟩ := h
    cases pure_eq_ok.mp h
    rcases List.mem_cons.mp hb with rfl | hb
    · exact ⟨a, List.mem_cons_self, hc⟩
    · obtain ⟨a', ha', heq⟩ := ih hrest hb
      exact ⟨a', List.mem_cons_of_mem _ ha', heq⟩

theorem mapM_map_eq {γ : Type} {f : α → Except ε β} {g : α → γ} {g' : β → γ} {l : List α}
    {l' : List β} (h : l.mapM f = .ok l') (hg : ∀ a b, f a = .ok b → g' b = g a) :
    l'.map g' = l.map g := by
  induction l generalizing l' with
  | nil =>
    cases h
    rfl
  | cons a rest ih =>
    simp only [List.mapM_cons, bind_eq_ok] at h
    obtain ⟨b, hb, rest', hrest, h⟩ := h
    cases pure_eq_ok.mp h
    rw [List.map_cons, List.map_cons, hg a b hb, ih hrest]

section Fold
variable {step : β → α → Except ε β} {P : β → List α → Prop} {b b' : β} {l : List α}

theorem foldlM_congr {other : β → α → Except ε β}
    (h : ∀ a ∈ l, ∀ b, step b a = other b a) : l.foldlM step b = l.foldlM other b := by
  induction l generalizing b with
  | nil => rfl
  | cons a rest ih =>
    rw [List.foldlM_cons, List.foldlM_cons, h a List.mem_cons_self]
    cases other b a with
    | error e => rfl
    | ok b₁ => exact ih fun a ha => h a (List.mem_cons_of_mem _ ha)

theorem foldlM_inv
    (hstep : ∀ b a rest b', P b (a :: rest) → step b a = .ok b' → P b' rest)
    (hb : P b l) (hok : l.foldlM step b = .ok b') : P b' [] := by
  induction l generalizing b with
  | nil =>
    cases hok
    exact hb
  | cons a rest ih =>
    rw [List.foldlM_cons, bind_eq_ok] at hok
    obtain ⟨b₁, h₁, h₂⟩ := hok
    exact ih (hstep b a rest b₁ hb h₁) h₂

theorem foldlM_total
    (hstep : ∀ b a rest, P b (a :: rest) → ∃ b', step b a = .ok b' ∧ P b' rest)
    (hb : P b l) : ∃ b', l.foldlM step b = .ok b' := by
  induction l generalizing b with
  | nil => exact ⟨b, rfl⟩
  | cons a rest ih =>
    obtain ⟨b₁, h₁, hinv⟩ := hstep b a rest hb
    obtain ⟨b', h₂⟩ := ih hinv
    exact ⟨b', by rw [List.foldlM_cons, bind_eq_ok]; exact ⟨b₁, h₁, h₂⟩⟩

theorem foldlM_reaches
    (hstep : ∀ b a rest, P b (a :: rest) → ∃ b', step b a = .ok b' ∧ P b' rest)
    (hb : P b l) : ∃ b', l.foldlM step b = .ok b' ∧ P b' [] := by
  obtain ⟨b', hok⟩ := foldlM_total hstep hb
  refine ⟨b', hok, foldlM_inv ?_ hb hok⟩
  intro b₁ a rest b₂ hP h₁
  obtain ⟨b₃, h₃, hP'⟩ := hstep b₁ a rest hP
  rw [h₁] at h₃
  exact Except.ok.inj h₃ ▸ hP'

theorem foldlM_range_total {Q : β → Prop} {turn : β → ℕ → Except ε β} {n : ℕ}
    (hturn : ∀ b ind, ind < n → Q b → ∃ b', turn b ind = .ok b' ∧ Q b') (hb : Q b) :
    ∃ b', (List.range n).foldlM turn b = .ok b' ∧ Q b' := by
  obtain ⟨b', hok, hQ, -⟩ := foldlM_reaches
    (P := fun b rest => Q b ∧ ∀ ind ∈ rest, ind < n) (l := List.range n)
    (fun b ind rest hP => by
      obtain ⟨b', hok, hQ⟩ := hturn b ind (hP.2 ind List.mem_cons_self) hP.1
      exact ⟨b', hok, hQ, fun i hi => hP.2 i (List.mem_cons_of_mem _ hi)⟩)
    ⟨hb, fun _ => List.mem_range.mp⟩
  exact ⟨b', hok, hQ⟩

theorem foldlM_turn
    (hstep : ∀ b a rest b', P b (a :: rest) → step b a = .ok b' → P b' rest)
    (hb : P b l) (hok : l.foldlM step b = .ok b') {a : α} (ha : a ∈ l) :
    ∃ b₁ rest b₂, P b₁ (a :: rest) ∧ step b₁ a = .ok b₂ := by
  induction l generalizing b with
  | nil => simp at ha
  | cons c rest ih =>
    rw [List.foldlM_cons, bind_eq_ok] at hok
    obtain ⟨b₁, h₁, h₂⟩ := hok
    rcases List.mem_cons.mp ha with rfl | ha
    · exact ⟨b, rest, b₁, hb, h₁⟩
    · exact ih (hstep b c rest b₁ hb h₁) h₂ ha

end Fold

theorem foldl_done {turn : β → α → β} {P : List α → β → Prop} {b : β} {l : List α}
    (hturn : ∀ done a b, a ∈ l → P done b → P (done ++ [a]) (turn b a)) (hb : P [] b) :
    P l (l.foldl turn b) := by
  induction l using List.reverseRecOn with
  | nil => exact hb
  | append_singleton rest a ih =>
    rw [List.foldl_append]
    apply hturn rest a _ (List.mem_append_right rest List.mem_cons_self)
    apply ih
    intro done c b hc
    exact hturn done c b (List.mem_append_left [a] hc)

end NetGymSim.Lib

/-!
## Postconditions of computations that may fail

`Yields e Q x` says that `x` does not fail with `e` and that a result of `x` meets `Q`. Other
failures are allowed. The rules follow the shape of a computation, so that a proof walks along a
definition, from one call to the next.
-/

namespace NetGymSim.Lib
variable {ε α β : Type}

def Yields (e : ε) (Q : α → Prop) : Except ε α → Prop
  | .ok a => Q a
  | .error e' => e' ≠ e

namespace Yields
variable {e e' : ε} {P Q : α → Prop} {x : Except ε α}

theorem ok {a : α} (h : Q a) : Yields e Q (.ok a) := h

theorem pure {a : α} (h : Q a) : Yields e Q (pure a) := h

theorem error (h : e' ≠ e) : Yields e Q (.error e') := h

theorem mono (h : Yields e P x) (hPQ : ∀ a, P a → Q a) : Yields e Q x := by
  cases x with
  | error e' => exact h
  | ok a => exact hPQ a h

theorem bind {R : β → Prop} {f : α → Except ε β} (hx : Yields e P x)
    (hf : ∀ a, P a → Yields e R (f a)) : Yields e R (x >>= f) := by
  cases x with
  | error e' => exact hx
  | ok a => exact hf a hx

theorem ne (h : Yields e Q x) : x ≠ .error e := by
  rintro rfl
  exact h rfl

theorem foldlM {R : β → Prop} {step : β → α → Except ε β} {l : List α} {b : β}
    (hstep : ∀ b, ∀ a ∈ l, R b → Yields e R (step b a)) (hb : R b) :
    Yields e R (l.foldlM step b) := by
  induction l generalizing b with
  | nil => exact hb
  | cons a rest ih =>
    rw [List.foldlM_cons]
    refine (hstep b a List.mem_cons_self hb).bind fun b₁ hb₁ => ?_
    exact ih (fun b a ha => hstep b a (List.mem_cons_of_mem _ ha)) hb₁

theorem mapM {R : β → Prop} {f : α → Except ε β} {l : List α}
    (hf : ∀ a ∈ l, Yields e R (f a)) : Yields e (fun l' => l'.length = l.length) (l.mapM f) := by
  induction l with
  | nil => exact rfl
  | cons a rest ih =>
    rw [List.mapM_cons]
    refine (hf a List.mem_cons_self).bind fun b _ => ?_
    refine (ih fun a ha => hf a (List.mem_cons_of_mem _ ha)).bind fun rest' hrest => ?_
    exact Yields.pure (by rw [List.length_cons, List.length_cons, hrest])

end Yields

end NetGymSim.Lib

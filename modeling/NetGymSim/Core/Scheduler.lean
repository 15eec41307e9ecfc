import NetGymSim.Lib.Machine
import Mathlib.Data.Prod.Lex
import Mathlib.Data.List.Perm.Basic
import Mathlib.Data.List.Nodup

/-!
# Schedulers

An event is an implementation pointer with a key; keys are ordered by timestamp and
then by uid. `SchedulerImpl` collects the operations of a scheduler with the list of
what it holds. `SchedulerRun` keeps beside it the events inserted and not yet removed,
and `Serves` is the promise of the base class: those are held, and the next event is
the earliest of them.
-/

namespace NetGymSim.Core
open NetGymSim.Lib

structure EventKey where
  ts : ℕ
  uid : ℕ
  context : ℕ
  deriving DecidableEq, Repr

structure Event where
  impl : ℕ
  key : EventKey
  deriving DecidableEq, Repr

def EventKey.lt (a b : EventKey) : Bool :=
  if a.ts < b.ts then true else if a.ts = b.ts ∧ a.uid < b.uid then true else false

def Event.rank (e : Event) : ℕ ×ₗ ℕ := toLex (e.key.ts, e.key.uid)

theorem EventKey.lt_iff (a b : Event) : a.key.lt b.key ↔ a.rank < b.rank := by
  unfold EventKey.lt Event.rank
  rw [Prod.Lex.toLex_lt_toLex]
  by_cases h : a.key.ts < b.key.ts <;> simp [h]

theorem EventKey.not_lt_iff (a b : Event) : ¬ a.key.lt b.key ↔ b.rank ≤ a.rank := by
  rw [EventKey.lt_iff, not_lt]

structure Earliest (e : Event) (stored : List Event) : Prop where
  mem : e ∈ stored
  least : ∀ x ∈ stored, ¬ x.key.lt e.key

theorem Earliest.of_perm {e : Event} {s t : List Event} (h : Earliest e s) (hp : s.Perm t) :
    Earliest e t :=
  ⟨hp.mem_iff.mp h.mem, fun x hx => h.least x (hp.mem_iff.mpr hx)⟩

structure SchedulerImpl (σ : Type*) where
  insert : σ → Event → σ
  isEmpty : σ → Bool
  peekNext : σ → Event
  removeNext : σ → Event × σ
  remove : σ → Event → σ
  contents : σ → List Event

inductive SchedulerOp
  | insert (ev : Event)
  | peekNext
  | removeNext
  | remove (ev : Event)
  deriving DecidableEq

/-- A scheduler with what was inserted and not yet removed, and the timestamp of the last
event that `RemoveNext` returned. -/
structure SchedulerRun (σ : Type*) where
  sched : σ
  stored : List Event := []
  lastTs : ℕ := 0

namespace SchedulerImpl
variable {σ : Type*} (I : SchedulerImpl σ)

def next (s : SchedulerRun σ) : SchedulerOp → SchedulerRun σ
  | .insert ev => { s with sched := I.insert s.sched ev, stored := ev :: s.stored }
  | .peekNext => s
  | .removeNext =>
      let r := I.removeNext s.sched
      { sched := r.2, stored := s.stored.erase r.1, lastTs := r.1.key.ts }
  | .remove ev => { s with sched := I.remove s.sched ev, stored := s.stored.erase ev }

/-- `PeekNext` and `RemoveNext` are not called when empty, `Remove` only for a stored event,
and the uids of stored events are distinct. -/
def enabled (s : SchedulerRun σ) : SchedulerOp → Prop
  | .insert ev => ∀ x ∈ s.stored, x.key.uid ≠ ev.key.uid
  | .peekNext | .removeNext => s.stored ≠ []
  | .remove ev => ev ∈ s.stored

def machine : Machine (SchedulerRun σ) SchedulerOp := ⟨fun s op => enabled s op, I.next⟩

instance (s : SchedulerRun σ) : (op : SchedulerOp) → Decidable (I.machine.enabled s op)
  | .insert ev => inferInstanceAs (Decidable (∀ x ∈ s.stored, x.key.uid ≠ ev.key.uid))
  | .peekNext | .removeNext => inferInstanceAs (Decidable (s.stored ≠ []))
  | .remove ev => inferInstanceAs (Decidable (ev ∈ s.stored))

structure Serves (s : SchedulerRun σ) : Prop where
  contents : (I.contents s.sched).Perm s.stored
  empty : I.isEmpty s.sched ↔ s.stored = []
  earliest : s.stored ≠ [] → Earliest (I.peekNext s.sched) s.stored
  agree : s.stored ≠ [] → (I.removeNext s.sched).1 = I.peekNext s.sched

end SchedulerImpl

def DistinctUids (stored : List Event) : Prop := (stored.map fun e => e.key.uid).Nodup

namespace DistinctUids
variable {stored : List Event}

theorem erase (h : DistinctUids stored) (e : Event) : DistinctUids (stored.erase e) :=
  h.sublist (List.erase_sublist.map _)

theorem cons (h : DistinctUids stored) {e : Event} (he : ∀ x ∈ stored, x.key.uid ≠ e.key.uid) :
    DistinctUids (e :: stored) := by
  refine List.nodup_cons.mpr ⟨?_, h⟩
  intro hm
  obtain ⟨x, hx, hxe⟩ := List.mem_map.mp hm
  exact he x hx hxe

theorem perm {t : List Event} (h : DistinctUids stored) (hp : stored.Perm t) : DistinctUids t :=
  (hp.map _).nodup_iff.mp h

theorem eq_of_uid (h : DistinctUids stored) {a b : Event} (ha : a ∈ stored) (hb : b ∈ stored)
    (hu : a.key.uid = b.key.uid) : a = b :=
  List.inj_on_of_nodup_map h ha hb hu

theorem earliest_unique (h : DistinctUids stored) {a b : Event} (ha : Earliest a stored)
    (hb : Earliest b stored) : a = b := by
  have h1 := (EventKey.not_lt_iff _ _).mp (ha.least b hb.mem)
  have h2 := (EventKey.not_lt_iff _ _).mp (hb.least a ha.mem)
  exact h.eq_of_uid ha.mem hb.mem (congrArg (fun p => (ofLex p).2) (le_antisymm h1 h2))

theorem eraseP_uid (h : DistinctUids stored) {ev : Event} (he : ev ∈ stored) :
    (stored.eraseP fun e => e.key.uid = ev.key.uid) = stored.erase ev := by
  induction stored with
  | nil => cases he
  | cons a l ih =>
    by_cases ha : a = ev
    · rw [List.eraseP_cons_of_pos (by simp [ha]), ha, List.erase_cons_head]
    · have hu : a.key.uid ≠ ev.key.uid := fun hu => ha (h.eq_of_uid List.mem_cons_self he hu)
      rw [List.eraseP_cons_of_neg (by simp [hu]), List.erase_cons_tail (by simp [ha])]
      have hl : ev ∈ l := (List.mem_cons.mp he).resolve_left (Ne.symm ha)
      rw [ih (List.nodup_cons.mp h).2 hl]

end DistinctUids
end NetGymSim.Core

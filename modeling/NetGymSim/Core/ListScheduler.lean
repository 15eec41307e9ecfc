import NetGymSim.Core.Scheduler
import NetGymSim.Lib.Buckets

/-!
# `ListScheduler`

One list sorted by key. It keeps the promise of the base class in every run, so it is
the sorted list that other schedulers are compared with, and the scheduler that the
event loop can be run on.
-/

namespace NetGymSim.Core
open NetGymSim.Lib
namespace ListScheduler

def KeyLt (a b : Event) : Prop := a.key.lt b.key

instance : DecidableRel KeyLt := fun a b => inferInstanceAs (Decidable (a.key.lt b.key = true))

def insert (events : List Event) (ev : Event) : List Event := events.orderedInsert KeyLt ev

def isEmpty (events : List Event) : Bool := events.isEmpty

/-- What is read at the front of an empty list; never used by a run. -/
def noEvent : Event := ⟨0, 0, 0, 0⟩

def peekNext (events : List Event) : Event := events.headD noEvent

def removeNext (events : List Event) : Event × List Event := (events.headD noEvent, events.tail)

def remove (events : List Event) (ev : Event) : List Event :=
  events.eraseP fun e => e.key.uid = ev.key.uid

def impl : SchedulerImpl (List Event) where
  insert := insert
  isEmpty := isEmpty
  peekNext := peekNext
  removeNext := removeNext
  remove := remove
  contents := id

theorem keyLt_iff {a b : Event} : KeyLt a b ↔ a.rank < b.rank := EventKey.lt_iff a b

theorem insert_sorted {events : List Event} {ev : Event} (h : events.Pairwise KeyLt)
    (hu : ∀ x ∈ events, x.key.uid ≠ ev.key.uid) : (insert events ev).Pairwise KeyLt := by
  refine pairwise_orderedInsert ?_ h ?_
  · intro a b c h1 h2
    rw [keyLt_iff] at *
    exact h1.trans h2
  · intro b hb hnot
    rw [keyLt_iff] at *
    refine lt_of_le_of_ne (not_lt.mp hnot) fun he => hu b hb ?_
    exact congrArg (fun p => (ofLex p).2) he

theorem head_earliest {ev : Event} {events : List Event} (h : (ev :: events).Pairwise KeyLt) :
    Earliest ev (ev :: events) := by
  refine ⟨List.mem_cons_self, fun x hx => ?_⟩
  rw [EventKey.not_lt_iff]
  rcases List.mem_cons.mp hx with rfl | hx
  · exact le_rfl
  · exact (keyLt_iff.mp ((List.pairwise_cons.mp h).1 x hx)).le

structure Holds (s : SchedulerRun (List Event)) : Prop where
  sorted : s.sched.Pairwise KeyLt
  contents : s.sched.Perm s.stored
  uids : DistinctUids s.stored

namespace Holds
variable {s : SchedulerRun (List Event)}

theorem initial : Holds { sched := [] } := ⟨List.Pairwise.nil, List.Perm.refl _, List.nodup_nil⟩

theorem exists_cons (h : Holds s) (hne : s.stored ≠ []) :
    ∃ ev rest, s.sched = ev :: rest ∧ Earliest ev s.stored := by
  obtain ⟨ev, rest, he⟩ := List.exists_cons_of_ne_nil (mt (fun e => by
    have := h.contents
    rw [e] at this
    exact List.nil_perm.mp this) hne : s.sched ≠ [])
  have hs := h.sorted
  have hp := h.contents
  rw [he] at hs hp
  exact ⟨ev, rest, he, (head_earliest hs).of_perm hp⟩

theorem serves (h : Holds s) : impl.Serves s where
  contents := h.contents
  empty := by
    show s.sched.isEmpty ↔ _
    rw [List.isEmpty_iff]
    constructor
    · intro e
      have := h.contents
      rw [e] at this
      exact List.nil_perm.mp this
    · intro e
      have := h.contents
      rw [e] at this
      exact List.perm_nil.mp this
  earliest hne := by
    obtain ⟨ev, rest, he, hl⟩ := h.exists_cons hne
    show Earliest (s.sched.headD noEvent) s.stored
    rw [he]
    exact hl
  agree _ := rfl

theorem step (h : Holds s) (op : SchedulerOp) (he : SchedulerImpl.enabled s op) :
    Holds (impl.next s op) := by
  cases op with
  | insert ev =>
    have hu : ∀ x ∈ s.sched, x.key.uid ≠ ev.key.uid :=
      fun x hx => he x (h.contents.mem_iff.mp hx)
    refine ⟨insert_sorted h.sorted hu, ?_, h.uids.cons he⟩
    exact (List.perm_orderedInsert KeyLt ev s.sched).trans (h.contents.cons ev)
  | peekNext => exact h
  | removeNext =>
    obtain ⟨ev, rest, hc, _⟩ := h.exists_cons he
    have hs := h.sorted
    have hp := h.contents
    rw [hc] at hs hp
    show Holds ⟨s.sched.tail, s.stored.erase (s.sched.headD noEvent), _⟩
    rw [hc]
    refine ⟨(List.pairwise_cons.mp hs).2, ?_, h.uids.erase ev⟩
    have hmem : ev ∈ s.stored := hp.mem_iff.mp List.mem_cons_self
    exact (hp.trans (List.perm_cons_erase hmem)).cons_inv
  | remove ev =>
    have hr : remove s.sched ev = s.sched.erase ev :=
      (h.uids.perm h.contents.symm).eraseP_uid (h.contents.mem_iff.mpr he)
    show Holds { s with sched := remove s.sched ev, stored := s.stored.erase ev }
    rw [hr]
    exact ⟨h.sorted.sublist List.erase_sublist, h.contents.erase ev, h.uids.erase ev⟩

theorem of_reaches {ops : List SchedulerOp} (h : impl.machine.Reaches { sched := [] } ops s) :
    Holds s :=
  Machine.Reaches.invariant (P := Holds) initial (fun _ op hs he => hs.step op he) h

end Holds

theorem list_scheduler_serves {ops : List SchedulerOp} {s : SchedulerRun (List Event)}
    (h : impl.machine.Reaches { sched := [] } ops s) : impl.Serves s := (Holds.of_reaches h).serves

end ListScheduler
end NetGymSim.Core

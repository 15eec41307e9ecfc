import NetGymSim.Core.EventLoopRuns

/-!
# `MapScheduler` and the choice of a scheduler

The default scheduler keeps the events in a `std::map`. Over schedulers that keep the promise of
their base class the event loop makes the same runs, whichever it is given.
-/

namespace NetGymSim.Core
open NetGymSim.Lib

namespace MapScheduler
open ListScheduler (KeyLt Holds noEvent)

/-- Keys of which none is less are one key for a `std::map`; the context plays no part. -/
def sameKey (a b : Event) : Bool := !a.key.lt b.key && !b.key.lt a.key

/-- `std::map::insert`, and whether the key was new. -/
def insert (m_list : List Event) (ev : Event) : Bool × List Event :=
  if m_list.any (sameKey ev) then (false, m_list) else (true, m_list.orderedInsert KeyLt ev)

def isEmpty (m_list : List Event) : Bool := m_list.isEmpty

def peekNext (m_list : List Event) : Event := m_list.headD noEvent

def removeNext (m_list : List Event) : Event × List Event := (m_list.headD noEvent, m_list.tail)

def find (m_list : List Event) (ev : Event) : Option Event := m_list.find? (sameKey ev)

/-- There is something to erase when the assertion holds. -/
def remove (m_list : List Event) (ev : Event) : List Event :=
  match find m_list ev with
  | some i => m_list.erase i
  | none => m_list

def impl : SchedulerImpl (List Event) where
  insert m_list ev := (insert m_list ev).2
  isEmpty := isEmpty
  peekNext := peekNext
  removeNext := removeNext
  remove := remove
  contents := id

/-- The assertions of the operations, as far as they are about what is stored. -/
def asserts (m_list : List Event) : SchedulerOp → Prop
  | .insert ev => (insert m_list ev).1 = true
  | .peekNext | .removeNext => m_list ≠ []
  | .remove ev => (find m_list ev).map Event.impl = some ev.impl

variable {s : SchedulerRun (List Event)} {ev x : Event}

theorem sameKey_iff : sameKey ev x = true ↔ ev.key.ts = x.key.ts ∧ ev.key.uid = x.key.uid := by
  unfold sameKey EventKey.lt
  split_ifs <;> simp <;> omega

theorem insert_new (h : Holds s) (he : ∀ x ∈ s.stored, x.key.uid ≠ ev.key.uid) :
    insert s.sched ev = (true, ListScheduler.insert s.sched ev) := by
  have hnew : s.sched.any (sameKey ev) = false := by
    rw [List.any_eq_false]
    intro x hx hkey
    exact he x (h.contents.mem_iff.mp hx) (sameKey_iff.mp hkey).2.symm
  rw [insert, hnew]
  rfl

theorem find_stored (h : Holds s) (hev : ev ∈ s.stored) : find s.sched ev = some ev := by
  have hsome : (s.sched.find? (sameKey ev)).isSome = true :=
    List.find?_isSome.mpr ⟨ev, h.contents.mem_iff.mpr hev, sameKey_iff.mpr ⟨rfl, rfl⟩⟩
  obtain ⟨x, hfind⟩ := Option.isSome_iff_exists.mp hsome
  have hx := h.contents.mem_iff.mp (List.mem_of_find?_eq_some hfind)
  have hkey := sameKey_iff.mp (List.find?_some hfind)
  rw [find, hfind, h.uids.eq_of_uid hx hev hkey.2.symm]

theorem remove_stored (h : Holds s) (hev : ev ∈ s.stored) :
    remove s.sched ev = ListScheduler.remove s.sched ev := by
  have huids := h.uids.perm h.contents.symm
  rw [remove, find_stored h hev]
  exact (huids.eraseP_uid (h.contents.mem_iff.mpr hev)).symm

/-- The map goes through the states of the sorted list. -/
theorem next_eq (h : Holds s) (op : SchedulerOp) (he : SchedulerImpl.enabled s op) :
    impl.next s op = ListScheduler.impl.next s op := by
  cases op with
  | insert ev =>
    show { s with sched := (insert s.sched ev).2, stored := _ } = _
    rw [insert_new h he]
    rfl
  | peekNext => rfl
  | removeNext => rfl
  | remove ev =>
    show { s with sched := remove s.sched ev, stored := _ } = _
    rw [remove_stored h he]
    rfl

theorem holds_of_reaches {ops : List SchedulerOp} (h : impl.machine.Reaches { sched := [] } ops s) :
    Holds s := by
  apply h.invariant (P := Holds) Holds.initial
  intro t op ht he
  show Holds (impl.next t op)
  rw [next_eq ht op he]
  exact ht.step op he

theorem serves (h : Holds s) : impl.Serves s :=
  ⟨h.serves.contents, h.serves.empty, h.serves.earliest, h.serves.agree⟩

/-- In every run the map keeps the promise of the base class, and what may be called next fails no
assertion. -/
theorem map_scheduler_serves {ops : List SchedulerOp}
    (h : impl.machine.Reaches { sched := [] } ops s) :
    impl.Serves s ∧ ∀ op, SchedulerImpl.enabled s op → asserts s.sched op := by
  have hs := holds_of_reaches h
  refine ⟨serves hs, fun op he => ?_⟩
  have hne : s.stored ≠ [] → s.sched ≠ [] := by
    intro hne hnil
    apply hne
    exact (serves hs).empty.mp (List.isEmpty_iff.mpr hnil)
  cases op with
  | insert ev =>
    show (insert s.sched ev).1 = true
    rw [insert_new hs he]
  | peekNext => exact hne he
  | removeNext => exact hne he
  | remove ev =>
    show (find s.sched ev).map Event.impl = some ev.impl
    rw [find_stored hs he, Option.map_some]

theorem map_scheduler_serves_removed :
    let s := impl.machine.exec { sched := [] } [.insert ⟨0, 7, 4, 1⟩, .insert ⟨1, 7, 5, 1⟩,
      .insert ⟨2, 3, 6, 1⟩, .remove ⟨0, 7, 4, 1⟩, .removeNext]
    s.sched = [⟨1, 7, 5, 1⟩] ∧ impl.Serves s := by
  refine ⟨by decide, (map_scheduler_serves (Machine.Permits.reaches ?_)).1⟩
  decide

end MapScheduler

namespace SimulatorRun
variable {σ τ : Type*} {I : SchedulerImpl σ} {J : SchedulerImpl τ} {start : σ} {start' : τ}
variable {r : SimulatorRun σ} {events : τ} {stored : List Event} {op : SimulatorOp}

def onto (r : SimulatorRun σ) (events : τ) : SimulatorRun τ where
  sim := { r.sim with events }
  issued := r.issued
  invoked := r.invoked
  withdrawn := r.withdrawn

def Together (I : SchedulerImpl σ) (J : SchedulerImpl τ) (start : σ) (start' : τ)
    (r : SimulatorRun σ) (events : τ) : Prop :=
  ∃ ops stored lastTs, I.machine.Reaches { sched := start } ops ⟨r.sim.events, stored, lastTs⟩ ∧
    J.machine.Reaches { sched := start' } ops ⟨events, stored, lastTs⟩ ∧ Holds r stored

theorem Holds.distinct (h : Holds r stored) : DistinctUids stored := by
  apply h.stored_nodup.map_on
  intro a ha b hb huid
  apply h.impl_inj (h.stored_issued a ha) (h.stored_issued b hb)
  have hna := h.numbered a (h.stored_issued a ha)
  have hnb := h.numbered b (h.stored_issued b hb)
  omega

theorem Together.step (hI : Lawful I start) (hJ : Lawful J start')
    (h : Together I J start start' r events) (he : enabled I r op) (hl : withinLimits r op) :
    enabled J (r.onto events) op ∧ ∃ events', (r.onto events).next J op =
      (r.next I op).onto events' ∧ Together I J start start' (r.next I op) events' := by
  obtain ⟨ops, stored, lastTs, hs, hs', h⟩ := h
  cases op with
  | schedule delay =>
    let ev := (r.sim.schedule I delay r.issued.length).1
    have hnew : ∀ x ∈ stored, x.key.uid ≠ ev.key.uid := by
      intro x hx
      have hx' := h.fresh x (h.stored_issued x hx)
      have hu := h.uid_eq hl.1
      exact (hu ▸ hx').ne
    exact ⟨he, _, rfl, _, _, _, hs.snoc (SchedulerOp.insert ev) hnew,
      hs'.snoc (SchedulerOp.insert ev) hnew, h.schedule hl⟩
  | cancel id =>
    refine ⟨he, events, ?_⟩
    by_cases hexp : r.sim.isExpired id
    · have hexp' : (r.onto events).sim.isExpired id := hexp
      simp only [next, DefaultSimulator.cancel, if_pos hexp, if_pos hexp']
      exact ⟨rfl, ops, stored, lastTs, hs, hs', h.skip he hexp⟩
    · have hexp' : ¬ (r.onto events).sim.isExpired id := hexp
      simp only [next, DefaultSimulator.cancel, if_neg hexp, if_neg hexp']
      exact ⟨rfl, ops, stored, lastTs, hs, hs', h.cancelImpl he hexp⟩
  | remove id =>
    refine ⟨he, ?_⟩
    have huid : id.key.uid ≠ 2 := by
      have hnum := (h.numbered id he).1
      omega
    by_cases hexp : r.sim.isExpired id
    · have hexp' : (r.onto events).sim.isExpired id := hexp
      simp only [next, DefaultSimulator.remove, if_neg huid, if_pos hexp, if_pos hexp']
      exact ⟨events, rfl, ops, stored, lastTs, hs, hs', h.skip he hexp⟩
    · have hexp' : ¬ (r.onto events).sim.isExpired id := hexp
      have hid := h.stored_of_not_expired he hexp
      simp only [next, DefaultSimulator.remove, if_neg huid, if_neg hexp, if_neg hexp']
      exact ⟨_, rfl, ops ++ [.remove id], stored.erase id, lastTs,
        hs.snoc (SchedulerOp.remove id) hid, hs'.snoc (SchedulerOp.remove id) hid,
        h.remove he hexp⟩
  | stop => exact ⟨he, events, rfl, ops, stored, lastTs, hs, hs', { h with }⟩
  | run => exact ⟨he, events, rfl, ops, stored, lastTs, hs, hs', { h with }⟩
  | processOneEvent =>
    have hv := hI ops _ hs
    have hv' := hJ ops _ hs'
    have hne : stored ≠ [] := by
      intro hnil
      have hempty := hv.empty.mpr hnil
      rw [he.1] at hempty
      cases hempty
    have hnext : Earliest (I.removeNext r.sim.events).1 stored :=
      (hv.agree hne).symm ▸ hv.earliest hne
    have hnext' : Earliest (J.removeNext events).1 stored :=
      (hv'.agree hne).symm ▸ hv'.earliest hne
    -- the earliest event is the same for both
    have hsame := h.distinct.earliest_unique hnext' hnext
    have hsteps := hs.snoc SchedulerOp.removeNext hne
    have hsteps' := hs'.snoc SchedulerOp.removeNext hne
    refine ⟨⟨?_, he.2⟩, (J.removeNext events).2, ?_, _, _, _, hsteps, ?_,
      h.processOneEvent rfl hnext⟩
    · rw [Bool.eq_false_iff]
      exact fun hempty => hne (hv'.empty.mp hempty)
    · simp only [next, onto, DefaultSimulator.processOneEvent, hsame]
      rfl
    · have hstate : J.next ⟨events, stored, lastTs⟩ .removeNext =
          ⟨(J.removeNext events).2, stored.erase (I.removeNext r.sim.events).1,
            (I.removeNext r.sim.events).1.key.ts⟩ := by
        rw [← hsame]
        rfl
      rw [← hstate]
      exact hsteps'

/-- A program of events makes the same run over any two schedulers that keep the promise of the base
class: with the same events invoked, in the same order and at the same times. -/
theorem event_loop_any_scheduler (hI : Lawful I start) (hJ : Lawful J start')
    {ops : List SimulatorOp}
    (h : ((machine I).restrict withinLimits).Reaches { sim := { events := start } } ops r) :
    ∃ events, ((machine J).restrict withinLimits).Reaches { sim := { events := start' } } ops
      (r.onto events) ∧ (J.contents events).Perm (I.contents r.sim.events) := by
  obtain ⟨r', hreach, events, rfl, htogether⟩ := h.simulate
    (R := fun r r' => ∃ events, r' = r.onto events ∧ Together I J start start' r events)
    (N := (machine J).restrict withinLimits)
    ⟨start', rfl, [], [], 0, .nil, .nil, Holds.initial⟩ (by
      rintro r r' op ⟨events, rfl, htogether⟩ ⟨he, hl⟩
      obtain ⟨he', events', hnext, htogether'⟩ := htogether.step hI hJ he hl
      exact ⟨⟨he', by cases op <;> exact hl⟩, events', hnext, htogether'⟩)
  obtain ⟨sops, stored, lastTs, hs, hs', -⟩ := htogether
  exact ⟨events, hreach, (hJ _ _ hs').contents.trans (hI _ _ hs).contents.symm⟩

theorem event_loop_any_scheduler_default :
    let r := (machine ListScheduler.impl).exec { sim := { events := [] } }
      [.schedule 7, .schedule 7, .schedule 3, .remove ⟨0, 7, 4, 4294967295⟩, .run,
        .processOneEvent]
    ∃ events, ((machine MapScheduler.impl).restrict withinLimits).Reaches
        { sim := { events := [] } }
        [.schedule 7, .schedule 7, .schedule 3, .remove ⟨0, 7, 4, 4294967295⟩, .run,
          .processOneEvent] (r.onto events) ∧ events.Perm r.sim.events := by
  refine event_loop_any_scheduler (I := ListScheduler.impl) (J := MapScheduler.impl)
    (fun _ _ h => ListScheduler.list_scheduler_serves h)
    (fun _ _ h => MapScheduler.serves (MapScheduler.holds_of_reaches h))
    (Machine.Permits.reaches ?_)
  decide

end SimulatorRun
end NetGymSim.Core

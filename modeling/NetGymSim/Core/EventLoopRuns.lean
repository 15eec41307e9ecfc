import NetGymSim.Core.EventLoop
import NetGymSim.Core.ListScheduler

/-!
# Runs of the event loop

The events that are stored lie behind the current event in the order of the keys, those that
were invoked at or before it, and an event that is neither was withdrawn. So the comparison
with the current event and the flag of the implementation tell which ids are expired.
-/

namespace NetGymSim.Core
open NetGymSim.Lib
namespace SimulatorRun
variable {σ : Type*} {I : SchedulerImpl σ} {start : σ} {r : SimulatorRun σ} {stored : List Event}

def current (r : SimulatorRun σ) : ℕ ×ₗ ℕ := toLex (r.sim.currentTs, r.sim.currentUid)

structure Holds (r : SimulatorRun σ) (stored : List Event) : Prop where
  uid : r.sim.uid = (4 + r.issued.length) % 4294967296
  few : r.issued.length ≤ 4294967292
  numbered : ∀ e ∈ r.issued, e.key.uid = 4 + e.impl ∧ e.impl < r.issued.length
  issued_order : r.issued.Pairwise fun a b => a.key.uid < b.key.uid
  stored_issued : ∀ e ∈ stored, e ∈ r.issued
  invoked_issued : ∀ e ∈ r.invoked, e ∈ r.issued
  stored_nodup : stored.Nodup
  gone : ∀ e ∈ r.issued, e ∉ stored → e ∈ r.invoked ∨ e ∈ r.withdrawn
  later : ∀ e ∈ stored, r.current < e.rank
  past : ∀ e ∈ r.invoked, e.rank ≤ r.current
  invoked_order : r.invoked.Pairwise fun a b => a.rank < b.rank
  never : ∀ e ∈ r.withdrawn, e ∉ r.invoked
  withdrawn_issued : ∀ e ∈ r.withdrawn, e ∈ r.issued
  flags : ∀ n, r.sim.cancelled n ↔ ∃ e ∈ r.withdrawn, e.impl = n
  ahead : r.sim.currentUid < 4 + r.issued.length
  count : r.sim.unscheduledEvents = int32 stored.length

namespace Holds

theorem initial : Holds { sim := { events := start } } [] where
  uid := rfl
  few := by simp
  numbered := by simp
  issued_order := .nil
  stored_issued := by simp
  invoked_issued := by simp
  stored_nodup := .nil
  gone := by simp
  later := by simp
  past := by simp
  invoked_order := .nil
  never := by simp
  withdrawn_issued := by simp
  flags := by simp
  ahead := by simp
  count := rfl

theorem impl_inj (h : Holds r stored) {a b : Event} (ha : a ∈ r.issued) (hb : b ∈ r.issued)
    (hab : a.impl = b.impl) : a = b := by
  have hnd : (r.issued.map fun e => e.key.uid).Nodup := by
    rw [List.Nodup, List.pairwise_map]
    exact h.issued_order.imp Nat.ne_of_lt
  refine List.inj_on_of_nodup_map hnd ha hb ?_
  rw [(h.numbered a ha).1, (h.numbered b hb).1, hab]

theorem cancelled_iff (h : Holds r stored) {e : Event} (he : e ∈ r.issued) :
    r.sim.cancelled e.impl ↔ e ∈ r.withdrawn := by
  rw [h.flags]
  constructor
  · rintro ⟨x, hx, hxe⟩
    rwa [← h.impl_inj (h.withdrawn_issued x hx) he hxe]
  · exact fun hw => ⟨e, hw, rfl⟩

theorem isExpired_iff (h : Holds r stored) {e : Event} (he : e ∈ r.issued) :
    r.sim.isExpired e ↔ e.rank ≤ r.current ∨ r.sim.cancelled e.impl := by
  have huid : e.key.uid ≠ 2 := by
    have := (h.numbered e he).1
    omega
  unfold DefaultSimulator.isExpired current Event.rank
  rw [if_neg huid, Prod.Lex.toLex_le_toLex]
  simp

theorem expired (h : Holds r stored) {e : Event} (he : e ∈ r.issued) :
    r.sim.isExpired e ↔ e ∈ r.invoked ∨ e ∈ r.withdrawn := by
  rw [h.isExpired_iff he, h.cancelled_iff he]
  constructor
  · rintro (hle | hw)
    · refine h.gone e he fun hs => ?_
      exact absurd (h.later e hs) (not_lt.mpr hle)
    · exact .inr hw
  · rintro (hi | hw)
    · exact .inl (h.past e hi)
    · exact .inr hw

theorem mem_withdraw {id e : Event} :
    e ∈ r.withdraw id ↔ e ∈ r.withdrawn ∨ e = id ∧ id ∉ r.invoked := by
  unfold withdraw
  split
  · rename_i hi
    simp [hi]
  · rename_i hi
    rw [List.mem_cons, or_comm]
    simp [hi]

theorem flag (h : Holds r stored) {id : Event} (hi : id ∉ r.invoked) (n : ℕ) :
    Function.update r.sim.cancelled id.impl true n ↔ ∃ e ∈ r.withdraw id, e.impl = n := by
  have hmem : (∃ e ∈ r.withdraw id, e.impl = n) ↔
      (∃ e ∈ r.withdrawn, e.impl = n) ∨ id.impl = n := by
    simp only [mem_withdraw, or_and_right, exists_or]
    simp [hi]
  rw [hmem, ← h.flags]
  by_cases hn : n = id.impl
  · simp [hn]
  · rw [Function.update_of_ne hn]
    simp [Ne.symm hn]

theorem withdraw_of_expired (h : Holds r stored) {id : Event} (hid : id ∈ r.issued)
    (hexp : r.sim.isExpired id) {e : Event} : e ∈ r.withdraw id ↔ e ∈ r.withdrawn := by
  rw [mem_withdraw]
  constructor
  · rintro (he | ⟨rfl, hi⟩)
    · exact he
    · exact ((h.expired hid).mp hexp).resolve_left hi
  · exact .inl

theorem stored_of_not_expired (h : Holds r stored) {id : Event} (hid : id ∈ r.issued)
    (hexp : ¬ r.sim.isExpired id) : id ∈ stored := by
  by_contra hs
  exact hexp ((h.expired hid).mpr (h.gone id hid hs))

theorem never_withdraw (h : Holds r stored) (id : Event) :
    ∀ e ∈ r.withdraw id, e ∉ r.invoked := by
  intro e he
  rcases mem_withdraw.mp he with hw | ⟨rfl, hi⟩
  · exact h.never e hw
  · exact hi

theorem gone_withdraw (h : Holds r stored) (id : Event) :
    ∀ e ∈ r.issued, e ∉ stored → e ∈ r.invoked ∨ e ∈ r.withdraw id :=
  fun e he hs => (h.gone e he hs).imp_right fun hw => mem_withdraw.mpr (.inl hw)

theorem uid_eq (h : Holds r stored) (hfew : r.issued.length < 4294967292) :
    r.sim.uid = 4 + r.issued.length := by
  rw [h.uid, Nat.mod_eq_of_lt (by omega)]

theorem fresh (h : Holds r stored) : ∀ e ∈ r.issued, e.key.uid < 4 + r.issued.length := by
  intro e he
  have := h.numbered e he
  omega

theorem schedule (h : Holds r stored) {delay : ℕ} (hl : withinLimits r (.schedule delay)) :
    Holds (r.next I (.schedule delay)) ((r.sim.schedule I delay r.issued.length).1 :: stored) := by
  obtain ⟨hfew, htime⟩ := hl
  have huid := h.uid_eq hfew
  have hts : (delay + r.sim.currentTs) % 2 ^ 64 = delay + r.sim.currentTs :=
    Nat.mod_eq_of_lt (by omega)
  have hahead := h.ahead
  simp only [next, DefaultSimulator.schedule, huid, hts]
  set ev : Event := ⟨r.issued.length,
    ⟨delay + r.sim.currentTs, 4 + r.issued.length, r.sim.currentContext⟩⟩ with hev
  have hnew : ev ∉ r.issued := fun he => absurd (h.fresh ev he) (lt_irrefl _)
  have hafter : r.current < ev.rank := by
    show toLex (r.sim.currentTs, r.sim.currentUid) < toLex (ev.key.ts, ev.key.uid)
    rw [Prod.Lex.toLex_lt_toLex]
    simp only [hev]
    omega
  refine ⟨?_, ?_, ?_, ?_, ?_, ?_, ?_, ?_, ?_, h.past, h.invoked_order, h.never, ?_,
    h.flags, ?_, ?_⟩
  · simp only [Lib.add32, List.length_append, List.length_singleton]
    omega
  · rw [List.length_append, List.length_singleton]
    omega
  · intro e he
    rw [List.length_append, List.length_singleton]
    rcases List.mem_append.mp he with he | he
    · have := h.numbered e he
      omega
    · rw [List.mem_singleton.mp he]
      exact ⟨rfl, Nat.lt_succ_self _⟩
  · refine List.pairwise_append.mpr ⟨h.issued_order, List.pairwise_singleton _ _, ?_⟩
    intro a ha b hb
    rw [List.mem_singleton.mp hb]
    exact h.fresh a ha
  · intro e he
    rcases List.mem_cons.mp he with rfl | he
    · exact List.mem_append_right _ (List.mem_singleton_self _)
    · exact List.mem_append_left _ (h.stored_issued e he)
  · exact fun e he => List.mem_append_left _ (h.invoked_issued e he)
  · exact List.nodup_cons.mpr ⟨fun he => hnew (h.stored_issued ev he), h.stored_nodup⟩
  · intro e he hs
    rw [List.mem_cons, not_or] at hs
    rcases List.mem_append.mp he with he | he
    · exact h.gone e he hs.2
    · exact absurd (List.mem_singleton.mp he) hs.1
  · intro e he
    rcases List.mem_cons.mp he with rfl | he
    · exact hafter
    · exact h.later e he
  · exact fun e he => List.mem_append_left _ (h.withdrawn_issued e he)
  · show r.sim.currentUid < 4 + (r.issued ++ [ev]).length
    rw [List.length_append]
    omega
  · simp only [List.length_cons, h.count, int32]
    push_cast
    omega

theorem withdrawn_of_withdraw (h : Holds r stored) {id : Event} (hid : id ∈ r.issued) :
    ∀ e ∈ r.withdraw id, e ∈ r.issued := by
  intro e he
  rcases mem_withdraw.mp he with hw | ⟨rfl, _⟩
  · exact h.withdrawn_issued e hw
  · exact hid

theorem skip (h : Holds r stored) {id : Event} (hid : id ∈ r.issued)
    (hexp : r.sim.isExpired id) : Holds { r with withdrawn := r.withdraw id } stored :=
  { h with
    gone := h.gone_withdraw id
    never := h.never_withdraw id
    withdrawn_issued := h.withdrawn_of_withdraw hid
    flags := fun n => by
      simp only [h.withdraw_of_expired hid hexp]
      exact h.flags n }

theorem cancelImpl (h : Holds r stored) {id : Event} (hid : id ∈ r.issued)
    (hexp : ¬ r.sim.isExpired id) :
    Holds { r with sim := r.sim.cancelImpl id.impl, withdrawn := r.withdraw id } stored :=
  { h with
    gone := h.gone_withdraw id
    never := h.never_withdraw id
    withdrawn_issued := h.withdrawn_of_withdraw hid
    flags := h.flag fun hi => hexp ((h.expired hid).mpr (.inl hi)) }

theorem remove (h : Holds r stored) {id : Event} (hid : id ∈ r.issued)
    (hexp : ¬ r.sim.isExpired id) :
    Holds { r with
      sim := { r.sim.cancelImpl id.impl with
        events := I.remove r.sim.events id
        unscheduledEvents := int32 (r.sim.unscheduledEvents - 1) }
      withdrawn := r.withdraw id } (stored.erase id) := by
  have hc := h.cancelImpl hid hexp
  have hi : id ∉ r.invoked := fun hi => hexp ((h.expired hid).mpr (.inl hi))
  have hs := h.stored_of_not_expired hid hexp
  refine { hc with
    stored_issued := fun e he => h.stored_issued e (List.mem_of_mem_erase he)
    stored_nodup := h.stored_nodup.erase id
    gone := ?_
    later := fun e he => h.later e (List.mem_of_mem_erase he)
    count := ?_ }
  · intro e he hne
    rw [h.stored_nodup.mem_erase_iff, not_and_or, not_not] at hne
    rcases hne with rfl | hne
    · exact .inr (mem_withdraw.mpr (.inr ⟨rfl, hi⟩))
    · exact hc.gone e he hne
  · have hpos := List.length_pos_of_mem hs
    simp only [List.length_erase_of_mem hs, h.count, int32]
    omega

theorem processOneEvent (h : Holds r stored) {ev : Event} {rest : σ}
    (hrest : I.removeNext r.sim.events = (ev, rest)) (hr : Earliest ev stored) :
    Holds (r.next I .processOneEvent) (stored.erase ev) := by
  simp only [next, DefaultSimulator.processOneEvent, hrest]
  have hev := h.stored_issued ev hr.mem
  have hnum := h.numbered ev hev
  have hlast : ∀ e ∈ r.invoked, e.rank < ev.rank :=
    fun e he => (h.past e he).trans_lt (h.later ev hr.mem)
  have hinv : ∀ e ∈ (if r.sim.cancelled ev.impl then r.invoked else r.invoked ++ [ev]),
      e ∈ r.invoked ∨ e = ev ∧ ev ∉ r.withdrawn := by
    intro e he
    split at he
    · exact .inl he
    · rename_i hc
      rw [List.mem_append, List.mem_singleton] at he
      exact he.imp_right fun heq => ⟨heq, fun hw => hc ((h.cancelled_iff hev).mpr hw)⟩
  refine { h with
    stored_issued := fun e he => h.stored_issued e (List.mem_of_mem_erase he)
    invoked_issued := ?_
    stored_nodup := h.stored_nodup.erase ev
    gone := ?_
    later := ?_
    past := ?_
    invoked_order := ?_
    never := ?_
    ahead := ?_
    count := ?_ }
  · intro e he
    rcases hinv e he with he | ⟨rfl, _⟩
    · exact h.invoked_issued e he
    · exact hev
  · intro e he hne
    rw [h.stored_nodup.mem_erase_iff, not_and_or, not_not] at hne
    by_cases hc : r.sim.cancelled ev.impl
    · rw [if_pos hc]
      rcases hne with rfl | hne
      · exact .inr ((h.cancelled_iff he).mp hc)
      · exact h.gone e he hne
    · rw [if_neg hc]
      rcases hne with rfl | hne
      · exact .inl (List.mem_append_right _ (List.mem_singleton_self _))
      · exact (h.gone e he hne).imp_left (List.mem_append_left _)
  · intro e he
    show ev.rank < e.rank
    rw [h.stored_nodup.mem_erase_iff] at he
    have hle := (EventKey.not_lt_iff _ _).mp (hr.least e he.2)
    refine lt_of_le_of_ne hle fun heq => he.1 ?_
    have huid : ev.key.uid = e.key.uid := congrArg (fun p => (ofLex p).2) heq
    have hnum' := h.numbered e (h.stored_issued e he.2)
    refine h.impl_inj (h.stored_issued e he.2) hev ?_
    omega
  · intro e he
    show e.rank ≤ ev.rank
    rcases hinv e he with he | ⟨rfl, _⟩
    · exact (hlast e he).le
    · exact le_rfl
  · by_cases hc : r.sim.cancelled ev.impl
    · rw [if_pos hc]
      exact h.invoked_order
    · rw [if_neg hc]
      refine List.pairwise_append.mpr ⟨h.invoked_order, List.pairwise_singleton _ _, ?_⟩
      intro a ha b hb
      rw [List.mem_singleton.mp hb]
      exact hlast a ha
  · intro e he hi
    rcases hinv e hi with hi | ⟨rfl, hw⟩
    · exact h.never e he hi
    · exact hw he
  · show ev.key.uid < 4 + r.issued.length
    omega
  · have hpos := List.length_pos_of_mem hr.mem
    simp only [List.length_erase_of_mem hr.mem, h.count, int32]
    omega

end Holds

def Driven (I : SchedulerImpl σ) (start : σ) (r : SimulatorRun σ) : Prop :=
  ∃ ops stored lastTs, I.machine.Reaches { sched := start } ops ⟨r.sim.events, stored, lastTs⟩ ∧
    Holds r stored

theorem Driven.initial : Driven I start { sim := { events := start } } :=
  ⟨[], [], 0, .nil, Holds.initial⟩

theorem Driven.step (hI : Lawful I start) (h : Driven I start r) (op : SimulatorOp)
    (he : enabled I r op) (hl : withinLimits r op) : Driven I start (r.next I op) := by
  obtain ⟨ops, stored, lastTs, hs, h⟩ := h
  cases op with
  | schedule delay =>
    refine ⟨_, _, _, hs.snoc (.insert (r.sim.schedule I delay r.issued.length).1) ?_,
      h.schedule hl⟩
    intro x hx
    have hx' := h.fresh x (h.stored_issued x hx)
    have hu := h.uid_eq hl.1
    exact (hu ▸ hx').ne
  | cancel id =>
    refine ⟨ops, stored, lastTs, ?_⟩
    by_cases hexp : r.sim.isExpired id
    · simp only [next, DefaultSimulator.cancel, if_pos hexp]
      exact ⟨hs, h.skip he hexp⟩
    · simp only [next, DefaultSimulator.cancel, if_neg hexp]
      exact ⟨hs, h.cancelImpl he hexp⟩
  | remove id =>
    have huid : id.key.uid ≠ 2 := by
      have := (h.numbered id he).1
      omega
    by_cases hexp : r.sim.isExpired id
    · refine ⟨ops, stored, lastTs, ?_⟩
      simp only [next, DefaultSimulator.remove, if_neg huid, if_pos hexp]
      exact ⟨hs, h.skip he hexp⟩
    · refine ⟨ops ++ [.remove id], stored.erase id, lastTs, ?_⟩
      simp only [next, DefaultSimulator.remove, if_neg huid, if_neg hexp]
      exact ⟨hs.snoc (SchedulerOp.remove id) (h.stored_of_not_expired he hexp), h.remove he hexp⟩
  | stop => exact ⟨ops, stored, lastTs, hs, { h with }⟩
  | run => exact ⟨ops, stored, lastTs, hs, { h with }⟩
  | processOneEvent =>
    have hv := hI ops _ hs
    have hne : stored ≠ [] := by
      intro hnil
      have := hv.empty.mpr hnil
      rw [he.1] at this
      cases this
    refine ⟨_, _, _, hs.snoc SchedulerOp.removeNext hne, h.processOneEvent rfl ?_⟩
    have ha : (I.removeNext r.sim.events).1 = I.peekNext r.sim.events := hv.agree hne
    rw [ha]
    exact hv.earliest hne

theorem Driven.of_reaches (hI : Lawful I start) {ops : List SimulatorOp}
    (h : ((machine I).restrict withinLimits).Reaches { sim := { events := start } } ops r) :
    Driven I start r :=
  Machine.Reaches.invariant (P := Driven I start) .initial
    (fun _ op hd (he : _ ∧ _) => hd.step hI op he.1 he.2) h

theorem Holds.scheduled_before (h : Holds r stored) {a b : Event} (ha : a ∈ r.issued)
    (hb : b ∈ r.issued) (hab : a.key.uid < b.key.uid) : [a, b].Sublist r.issued := by
  have key : ∀ l : List Event, (l.Pairwise fun a b => a.key.uid < b.key.uid) → a ∈ l → b ∈ l →
      [a, b].Sublist l := by
    intro l hl hal hbl
    induction hl with
    | nil => cases hal
    | cons hx _ ih =>
      rcases List.mem_cons.mp hal with rfl | ha'
      · rcases List.mem_cons.mp hbl with rfl | hb'
        · exact absurd hab (lt_irrefl _)
        · exact (List.singleton_sublist.mpr hb').cons_cons _
      · rcases List.mem_cons.mp hbl with rfl | hb'
        · exact absurd (hx a ha') (not_lt_of_gt hab)
        · exact (ih ha' hb').cons _
  exact key r.issued h.issued_order ha hb

theorem Driven.sound (hI : Lawful I start) (h : Driven I start r) : Sound I r := by
  obtain ⟨ops, stored, lastTs, hs, h⟩ := h
  have hv := hI ops _ hs
  refine ⟨?_, h.invoked_issued, ?_, h.never, ?_, ?_, fun e he => h.expired he⟩
  · refine h.invoked_order.imp_of_mem fun {a b} ha hb hab => ?_
    rw [Event.rank, Event.rank, Prod.Lex.toLex_lt_toLex] at hab
    refine hab.imp_right fun hab => ⟨hab.1, ?_⟩
    exact h.scheduled_before (h.invoked_issued a ha) (h.invoked_issued b hb) hab.2
  · exact h.invoked_order.imp fun hab heq => hab.ne (congrArg Event.rank heq)
  · intro e he hi hw
    have hmem : e ∈ stored := by
      by_contra hs
      exact (h.gone e he hs).elim hi hw
    refine ⟨hv.contents.mem_iff.mpr hmem, ?_⟩
    have hlt := h.later e hmem
    rw [current, Event.rank, Prod.Lex.toLex_lt_toLex] at hlt
    omega
  · intro hempty e he
    have hnil : stored = [] := hv.empty.mp hempty
    refine h.gone e he ?_
    rw [hnil]
    exact List.not_mem_nil

theorem Driven.counted (hI : Lawful I start) (h : Driven I start r)
    (hroom : (I.contents r.sim.events).length < 2 ^ 31) : Counted I r := by
  obtain ⟨ops, stored, lastTs, hs, h⟩ := h
  have hlen : (I.contents r.sim.events).length = stored.length :=
    (hI ops _ hs).contents.length_eq
  rw [Counted, h.count, hlen, int32]
  omega

theorem Driven.clock (hI : Lawful I start) (h : Driven I start r) (op : SimulatorOp)
    (he : enabled I r op) : r.sim.currentTs ≤ (r.next I op).sim.currentTs := by
  obtain ⟨ops, stored, lastTs, hs, h⟩ := h
  cases op with
  | schedule delay => exact le_rfl
  | cancel id =>
    simp only [next, DefaultSimulator.cancel]
    split <;> exact le_rfl
  | remove id =>
    simp only [next, DefaultSimulator.remove]
    split
    · exact le_rfl
    · split <;> exact le_rfl
  | stop => exact le_rfl
  | run => exact le_rfl
  | processOneEvent =>
    have hv := hI ops _ hs
    have hne : stored ≠ [] := by
      intro hnil
      have := hv.empty.mpr hnil
      rw [he.1] at this
      cases this
    have ha : (I.removeNext r.sim.events).1 = I.peekNext r.sim.events := hv.agree hne
    have hmem : (I.removeNext r.sim.events).1 ∈ stored := ha ▸ (hv.earliest hne).mem
    have hlt := h.later _ hmem
    rw [current, Event.rank, Prod.Lex.toLex_lt_toLex] at hlt
    show r.sim.currentTs ≤ (I.removeNext r.sim.events).1.key.ts
    omega

/-- Over any scheduler that returns the minimum, every program of events is run in order, each
event once unless it is withdrawn before, and the clock does not go back. -/
theorem event_loop_sound (hI : Lawful I start) {ops : List SimulatorOp}
    (h : ((machine I).restrict withinLimits).Reaches { sim := { events := start } } ops r) :
    Sound I r ∧ ((I.contents r.sim.events).length < 2 ^ 31 → Counted I r) ∧
      ∀ later t, ((machine I).restrict withinLimits).Reaches r later t →
        r.sim.currentTs ≤ t.sim.currentTs := by
  have hd := Driven.of_reaches hI h
  refine ⟨hd.sound hI, hd.counted hI, fun later t ht => ?_⟩
  have hP : Driven I start t ∧ r.sim.currentTs ≤ t.sim.currentTs := by
    refine Machine.Reaches.invariant
      (P := fun t => Driven I start t ∧ r.sim.currentTs ≤ t.sim.currentTs) ⟨hd, le_rfl⟩ ?_ ht
    intro s op hs he
    exact ⟨hs.1.step hI op he.1 he.2, hs.2.trans (hs.1.clock hI op he.1)⟩
  exact hP.2

theorem event_loop_sound_cancelled :
    let r := (machine ListScheduler.impl).exec { sim := { events := [] } }
      [.schedule 7, .schedule 7, .schedule 3, .cancel ⟨0, 7, 4, 4294967295⟩, .run,
        .processOneEvent, .processOneEvent, .processOneEvent]
    r.invoked = [⟨2, 3, 6, 4294967295⟩, ⟨1, 7, 5, 4294967295⟩] ∧ Sound ListScheduler.impl r := by
  refine ⟨by decide, ?_⟩
  refine (event_loop_sound (fun _ _ h => ListScheduler.list_scheduler_serves h)
    (Machine.Permits.reaches ?_)).1
  decide

/-! ## Beyond the limits -/

def rounds (n : ℕ) : List SimulatorOp :=
  (List.replicate n [.schedule 0, .processOneEvent]).flatten

structure AfterRounds (n : ℕ) (r : SimulatorRun (List Event)) : Prop where
  events : r.sim.events = []
  clock : r.sim.currentTs = 0
  going : r.sim.stop = false
  uid : r.sim.uid = (4 + n) % 4294967296
  issued : r.issued.length = n
  invoked : ∀ e ∈ r.invoked, 4 ≤ e.key.uid
  withdrawn : r.withdrawn = []

theorem reaches_rounds (n : ℕ) (hn : n ≤ 4294967292) :
    ∃ r, (machine ListScheduler.impl).Reaches { sim := { events := [] } } (rounds n) r ∧
      AfterRounds n r := by
  induction n with
  | zero => exact ⟨_, .nil, ⟨rfl, rfl, rfl, rfl, rfl, by simp, rfl⟩⟩
  | succ n ih =>
    obtain ⟨r, hr, h⟩ := ih (by omega)
    have hops : rounds (n + 1) = rounds n ++ [.schedule 0] ++ [.processOneEvent] := by
      simp [rounds, List.replicate_succ']
    have huid : r.sim.uid = 4 + n := by
      rw [h.uid, Nat.mod_eq_of_lt (by omega)]
    rw [hops]
    refine ⟨_, (hr.snoc (SimulatorOp.schedule 0) ?_).snoc .processOneEvent ?_, ?_⟩
    · exact Nat.two_pow_pos 63
    · refine ⟨?_, h.going⟩
      simp [machine, next, DefaultSimulator.schedule, ListScheduler.impl, ListScheduler.isEmpty,
        ListScheduler.insert, h.events]
    · simp only [machine, next, DefaultSimulator.schedule, DefaultSimulator.processOneEvent,
        ListScheduler.impl, ListScheduler.insert, ListScheduler.removeNext, h.events, h.clock,
        huid, List.orderedInsert]
      refine ⟨rfl, rfl, h.going, ?_, ?_, ?_, h.withdrawn⟩
      · rfl
      · simp [h.issued]
      · intro e (he : e ∈ if r.sim.cancelled r.issued.length then r.invoked
          else r.invoked ++ [⟨_, 0, 4 + n, _⟩])
        split at he
        · exact h.invoked e he
        · rcases List.mem_append.mp he with he | he
          · exact h.invoked e he
          · rw [List.mem_singleton.mp he]
            exact Nat.le_add_right 4 n

theorem reaches_schedules (n : ℕ) :
    ∃ r, (machine ListScheduler.impl).Reaches { sim := { events := [] } }
      (List.replicate n (.schedule 0)) r ∧
      r.sim.events.length = n ∧ r.sim.unscheduledEvents = int32 n := by
  induction n with
  | zero => exact ⟨_, .nil, rfl, rfl⟩
  | succ n ih =>
    obtain ⟨r, hr, hlen, hcount⟩ := ih
    rw [List.replicate_succ']
    refine ⟨_, hr.snoc (SimulatorOp.schedule 0) (Nat.two_pow_pos 63), ?_, ?_⟩
    · simp [machine, next, DefaultSimulator.schedule, ListScheduler.impl, ListScheduler.insert,
        List.orderedInsert_length, hlen]
    · simp only [machine, next, DefaultSimulator.schedule, hcount, int32]
      push_cast
      omega

/-- The uids wrap to zero before 2^32 events exist, and then a waiting event is expired; the
counter wraps at 2^31 stored events; and an event time that overflows sets the clock back. -/
theorem event_loop_wraps :
    (∃ r, (machine ListScheduler.impl).Reaches { sim := { events := [] } }
        (rounds 4294967292 ++ [.schedule 0]) r ∧
      r.issued.length < 2 ^ 32 ∧ ¬ Sound ListScheduler.impl r) ∧
    (∃ r, (machine ListScheduler.impl).Reaches { sim := { events := [] } }
        (List.replicate 2147483648 (.schedule 0)) r ∧ ¬ Counted ListScheduler.impl r) ∧
    (∃ r t, (machine ListScheduler.impl).Reaches { sim := { events := [] } }
        [.schedule (2 ^ 63 - 1), .processOneEvent, .schedule (2 ^ 63 - 1), .processOneEvent] r ∧
      (machine ListScheduler.impl).Reaches r [.schedule 2, .processOneEvent] t ∧
      t.sim.currentTs < r.sim.currentTs) := by
  refine ⟨?_, ?_, ?_⟩
  · obtain ⟨r, hr, h⟩ := reaches_rounds 4294967292 le_rfl
    refine ⟨_, hr.snoc (SimulatorOp.schedule 0) (Nat.two_pow_pos 63), ?_, fun hs => ?_⟩
    · simp [machine, next, h.issued]
    · have hexp := hs.expired (r.sim.schedule ListScheduler.impl 0 r.issued.length).1
        (List.mem_append_right _ (List.mem_singleton_self _))
      have huid : r.sim.uid = 0 := h.uid
      have htrue : ((machine ListScheduler.impl).next r (.schedule 0)).sim.isExpired
          (r.sim.schedule ListScheduler.impl 0 r.issued.length).1 = true := by
        simp [machine, next, DefaultSimulator.schedule, DefaultSimulator.isExpired, h.clock, huid]
      rcases hexp.mp htrue with hi | hw
      · have := h.invoked _ hi
        simp [DefaultSimulator.schedule, huid] at this
      · have hnil : r.withdrawn = [] := h.withdrawn
        change _ ∈ r.withdrawn at hw
        rw [hnil] at hw
        cases hw
  · obtain ⟨r, hr, hlen, hcount⟩ := reaches_schedules 2147483648
    refine ⟨r, hr, fun hc => ?_⟩
    have heq : r.sim.unscheduledEvents = r.sim.events.length := hc
    rw [hlen, hcount, int32] at heq
    omega
  · refine ⟨_, _, Machine.Permits.reaches ?_, Machine.Permits.reaches ?_, ?_⟩ <;> decide

end SimulatorRun
end NetGymSim.Core

import NetGymSim.Internet.Ipv4Timeouts
import Mathlib.Data.List.Perm.Basic

/-!
# Runs of the reassembly timers

`Kept` holds of the list, the sets and the record of what became of them, also between two turns
of the loop that expires entries. `Scheduled` is about the pending events. A dropped set lacks
its partial packet just when one of its fragments ends inside those before it.
-/

namespace NetGymSim.Internet.Ipv4L3Protocol
open Lib Fragments
variable {α : Type*}

namespace Fragments
variable {l before after : List (List α × ℕ)} {e : List α × ℕ} {p : List α} {n : ℕ}

/-- No fragment that the scan reaches without a gap ends before those in front of it. -/
def NoneInside (l : List (List α × ℕ)) (n : ℕ) : Prop :=
  ∀ before e after, l = before ++ e :: after → noGap (before ++ [e]) n = true →
    reach before n ≤ e.1.length + e.2

structure Piled (f : Fragments α) : Prop where
  nonempty : f.fragments ≠ []
  sorted : f.fragments.Pairwise fun a b => a.2 ≤ b.2
  small : ∀ e ∈ f.fragments, e.1.length + e.2 < 65536
  incomplete : f.isEntire = false

theorem NoneInside.of_gap (h : n < e.2) : NoneInside (e :: l) n := by
  intro before x after heq hg
  cases before with
  | nil =>
    obtain ⟨rfl, -⟩ := List.cons.inj heq
    rw [List.nil_append, noGap, if_pos h] at hg
    cases hg
  | cons y before =>
    obtain ⟨rfl, -⟩ := List.cons.inj heq
    rw [List.cons_append, noGap, if_pos h] at hg
    cases hg

theorem noneInside_cons (h : e.2 ≤ n) (hs : e.1.length + e.2 < 65536) :
    NoneInside (e :: l) n ↔
      n ≤ e.1.length + e.2 ∧ NoneInside l (max n (e.1.length + e.2)) := by
  have hscan : ∀ rest, noGap (e :: rest) n = noGap rest (max n (e.1.length + e.2)) := by
    intro rest
    rw [noGap, if_neg (by omega), Nat.mod_eq_of_lt hs]
  constructor
  · intro hl
    refine ⟨hl [] e l rfl (hscan []), ?_⟩
    intro before x after heq hg
    apply hl (e :: before) x after (by rw [heq]; rfl)
    rw [List.cons_append, hscan]
    exact hg
  · intro hl before x after heq hg
    cases before with
    | nil =>
      obtain ⟨rfl, -⟩ := List.cons.inj heq
      exact hl.1
    | cons y before =>
      obtain ⟨rfl, hrest⟩ := List.cons.inj heq
      rw [List.cons_append, hscan] at hg
      exact hl.2 before x after hrest hg

theorem partialLoop_of_gap (hp : p.length < 65536) (h : ∀ e ∈ l, p.length < e.2) :
    partialLoop l p = some p := by
  induction l with
  | nil => rfl
  | cons e rest ih =>
    have he := h e List.mem_cons_self
    rw [partialLoop, Nat.mod_eq_of_lt hp, if_neg (by omega), if_neg (by omega)]
    exact ih fun x hx => h x (List.mem_cons_of_mem e hx)

theorem partialLoop_ne_none_iff (hs : l.Pairwise fun a b => a.2 ≤ b.2)
    (hsmall : ∀ e ∈ l, e.1.length + e.2 < 65536) (hp : p.length < 65536) :
    partialLoop l p ≠ none ↔ NoneInside l p.length := by
  induction l generalizing p with
  | nil =>
    refine iff_of_true (by simp [partialLoop]) ?_
    intro before e after heq
    simp at heq
  | cons e rest ih =>
    obtain ⟨hfirst, hrest⟩ := List.pairwise_cons.mp hs
    have he := hsmall e List.mem_cons_self
    have hsmall' : ∀ x ∈ rest, x.1.length + x.2 < 65536 := fun x hx =>
      hsmall x (List.mem_cons_of_mem e hx)
    rw [partialLoop, Nat.mod_eq_of_lt hp]
    by_cases hgap : p.length < e.2
    · have hnone := partialLoop_of_gap (l := rest) hp fun x hx =>
        Nat.lt_of_lt_of_le hgap (hfirst x hx)
      rw [if_neg (by omega), if_neg (by omega), hnone]
      exact iff_of_true (by simp) (.of_gap hgap)
    · have hnext : ∀ q : List α, q.length = e.1.length + e.2 → p.length ≤ e.1.length + e.2 →
          (partialLoop rest q ≠ none ↔ NoneInside (e :: rest) p.length) := by
        intro q hq hle
        rw [noneInside_cons (by omega) he, Nat.max_eq_right hle, ← hq,
          ih hrest hsmall' (by omega)]
        exact (and_iff_right (by omega)).symm
      by_cases hover : e.2 < p.length
      · rw [if_pos hover]
        by_cases hin : p.length - e.2 ≤ e.1.length
        · rw [if_pos hin]
          apply hnext
          · rw [List.length_append, List.length_drop]
            omega
          · omega
        · rw [if_neg hin, noneInside_cons (by omega) he]
          exact iff_of_false (fun h => h rfl) fun h => hin (by omega)
      · rw [if_neg hover, if_pos (by omega)]
        apply hnext
        · rw [List.length_append]
          omega
        · omega

theorem Piled.getPartialPacket {f : Fragments α} (h : f.Piled) :
    f.getPartialPacket ≠ none ↔ NoneInside f.fragments 0 := by
  rw [Fragments.getPartialPacket]
  cases hl : f.fragments with
  | nil => exact absurd hl h.nonempty
  | cons e rest =>
    dsimp only
    by_cases hgap : 0 < e.2
    · rw [if_pos hgap]
      exact iff_of_true (by simp) (.of_gap hgap)
    · have hs := h.sorted
      have hsmall := h.small
      rw [hl] at hs hsmall
      rw [if_neg hgap]
      exact partialLoop_ne_none_iff hs hsmall (by simp)

theorem piled_addFragment {f : Fragments α} {fragment : List α} {off : ℕ} {more : Bool}
    (hs : f.fragments.Pairwise fun a b => a.2 ≤ b.2)
    (hsmall : ∀ e ∈ f.fragments, e.1.length + e.2 < 65536) (h : off + fragment.length < 65536)
    (hi : ¬(f.addFragment fragment off more).isEntire = true) :
    (f.addFragment fragment off more).Piled where
  nonempty := List.ne_nil_of_mem (mem_addFragment.mpr (.inr rfl))
  sorted := sorted_insert (e := (fragment, off)) hs
  small := by
    intro e he
    rcases mem_addFragment.mp he with he | rfl
    · exact hsmall e he
    · dsimp only
      omega
  incomplete := by simpa using hi

end Fragments

namespace Reassembler
variable {s : Reassembler α} {l before after : List TimeoutEntry} {e : TimeoutEntry}
  {key : ℕ × ℕ} {set : FragmentSet α} {d : Datagram α} {iif : ℕ}

/-- The sets, the record and the entries `l` of the list agree. -/
structure Kept (s : Reassembler α) (l : List TimeoutEntry) : Prop where
  sorted : l.Pairwise fun a b => a.deadline ≤ b.deadline
  keys : (l.map TimeoutEntry.key).Nodup
  holds : ∀ e ∈ l, ∃ set, s.fragments e.key = some set ∧ set.timeoutIter = e.iter
  entry : ∀ key set, s.fragments key = some set → ∃ e ∈ l, e.key = key
  due : ∀ e ∈ l, s.now ≤ e.deadline ∧ e.deadline = e.created + s.expiration ∧ e.created ≤ s.now
  iters : (s.completed ++ s.dropped.map (fun d => d.entry.iter) ++ l.map TimeoutEntry.iter).Perm
    (List.range s.nextIter)
  drops : ∀ d ∈ s.dropped, d.time = d.entry.deadline ∧
    d.entry.deadline = d.entry.created + s.expiration ∧ d.fragments.isEntire = false

structure Scheduled (s : Reassembler α) : Prop where
  ahead : ∀ p ∈ s.pending, s.now ≤ p
  served : ∀ e ∈ s.timeoutEventList, ∃ p ∈ s.pending, p ≤ e.deadline

def Piles (s : Reassembler α) : Prop :=
  ∀ key set, s.fragments key = some set → set.fragments.Piled

def Whole (s : Reassembler α) : Prop := ∀ d ∈ s.dropped, d.packet ≠ none

section Entries

theorem Kept.split (h : Kept s l) (hk : s.fragments key = some set) :
    ∃ before e after, l = before ++ e :: after ∧ e.key = key ∧ e.iter = set.timeoutIter := by
  obtain ⟨e, he, rfl⟩ := h.entry key set hk
  obtain ⟨set', hset, hiter⟩ := h.holds e he
  cases hk.symm.trans hset
  obtain ⟨before, after, heq⟩ := List.append_of_mem he
  exact ⟨before, e, after, heq, rfl, hiter.symm⟩

theorem Kept.others (h : Kept s (before ++ e :: after)) :
    ∀ x ∈ before ++ after, x.key ≠ e.key ∧ x.iter ≠ e.iter := by
  have hperm : (before ++ e :: after).Perm (e :: (before ++ after)) := List.perm_middle
  have hkeys := (hperm.map TimeoutEntry.key).nodup_iff.mp h.keys
  have hiters := (hperm.map TimeoutEntry.iter).nodup_iff.mp
    (List.nodup_append.mp (h.iters.nodup_iff.mpr List.nodup_range)).2.1
  rw [List.map_cons, List.nodup_cons] at hkeys hiters
  intro x hx
  constructor
  · intro heq
    exact hkeys.1 (heq ▸ List.mem_map_of_mem hx)
  · intro heq
    exact hiters.1 (heq ▸ List.mem_map_of_mem hx)

theorem Kept.remove (h : Kept s (before ++ e :: after)) {done : List ℕ} {drops : List (Drop α)}
    (hiters : (done ++ drops.map fun d => d.entry.iter).Perm
      (s.completed ++ s.dropped.map (fun d => d.entry.iter) ++ [e.iter]))
    (hdrops : ∀ d ∈ drops, d.time = d.entry.deadline ∧
      d.entry.deadline = d.entry.created + s.expiration ∧ d.fragments.isEntire = false)
    (l' : List TimeoutEntry) :
    Kept { s with
      fragments := Function.update s.fragments e.key none
      timeoutEventList := l', completed := done, dropped := drops } (before ++ after) where
  sorted := h.sorted.sublist ((List.sublist_cons_self e after).append_left before)
  keys := h.keys.sublist (((List.sublist_cons_self e after).append_left before).map _)
  holds := by
    intro x hx
    obtain ⟨set, hset, hiter⟩ := h.holds x (by
      apply List.mem_append.mpr
      exact (List.mem_append.mp hx).imp_right (List.mem_cons_of_mem e))
    refine ⟨set, ?_, hiter⟩
    dsimp only
    rw [Function.update_of_ne (h.others x hx).1]
    exact hset
  entry := by
    intro key set hset
    dsimp only at hset
    by_cases hkey : key = e.key
    · rw [hkey, Function.update_self] at hset
      cases hset
    · rw [Function.update_of_ne hkey] at hset
      obtain ⟨x, hx, hxkey⟩ := h.entry key set hset
      refine ⟨x, ?_, hxkey⟩
      rcases List.mem_append.mp hx with hx | hx
      · exact List.mem_append_left _ hx
      · rcases List.mem_cons.mp hx with rfl | hx
        · exact absurd hxkey.symm hkey
        · exact List.mem_append_right _ hx
  due := by
    intro x hx
    apply h.due x
    apply List.mem_append.mpr
    exact (List.mem_append.mp hx).imp_right (List.mem_cons_of_mem e)
  iters := by
    have hmid : ((before ++ e :: after).map TimeoutEntry.iter).Perm
        ([e.iter] ++ (before ++ after).map TimeoutEntry.iter) := List.perm_middle.map _
    apply List.Perm.trans (hiters.append_right _)
    rw [List.append_assoc]
    exact (hmid.symm.append_left _).trans h.iters
  drops := hdrops

theorem Kept.eraseTimeout (h : Kept s (before ++ e :: after))
    (hl : s.timeoutEventList = before ++ e :: after) :
    s.eraseTimeout e.iter = some { s with timeoutEventList := before ++ after } := by
  have hany : (s.timeoutEventList.any fun x => x.iter = e.iter) = true := by
    rw [List.any_eq_true]
    exact ⟨e, by rw [hl]; simp, by simp⟩
  rw [Reassembler.eraseTimeout, if_pos hany, hl, List.eraseP_append_right,
    List.eraseP_cons_of_pos]
  · simp
  · intro x hx
    have := (h.others x (List.mem_append_left _ hx)).2
    simpa using this

theorem Kept.refill (h : Kept s l) (hk : s.fragments key = some set) (f : Fragments α) :
    Kept { s with fragments :=
      Function.update s.fragments key (some { set with fragments := f }) } l where
  sorted := h.sorted
  keys := h.keys
  holds := by
    intro x hx
    obtain ⟨set', hset, hiter⟩ := h.holds x hx
    dsimp only
    by_cases hkey : x.key = key
    · rw [hkey] at hset
      cases hk.symm.trans hset
      exact ⟨{ set with fragments := f }, by rw [hkey, Function.update_self], hiter⟩
    · rw [Function.update_of_ne hkey]
      exact ⟨set', hset, hiter⟩
  entry := by
    intro k set' hset
    dsimp only at hset
    by_cases hkey : k = key
    · rw [hkey]
      exact h.entry key set hk
    · rw [Function.update_of_ne hkey] at hset
      exact h.entry k set' hset
  due := h.due
  iters := h.iters
  drops := h.drops

theorem Kept.setTimeout (h : Kept s s.timeoutEventList) (hk : s.fragments key = none)
    (ipHeader : Ipv4Header) (iif : ℕ) :
    Kept (s.setTimeout key ipHeader iif) (s.setTimeout key ipHeader iif).timeoutEventList where
  sorted := by
    rw [Reassembler.setTimeout, List.pairwise_append]
    refine ⟨h.sorted, List.pairwise_singleton .., ?_⟩
    intro x hx y hy
    rw [List.mem_singleton.mp hy]
    have := h.due x hx
    dsimp only
    omega
  keys := by
    rw [Reassembler.setTimeout, List.map_append, List.nodup_append]
    refine ⟨h.keys, List.pairwise_singleton .., ?_⟩
    intro k hkey k' hkey' heq
    obtain ⟨x, hx, rfl⟩ := List.mem_map.mp hkey
    obtain ⟨set, hset, -⟩ := h.holds x hx
    rw [heq, List.mem_singleton.mp hkey', hk] at hset
    cases hset
  holds := by
    intro x hx
    rcases List.mem_append.mp hx with hx | hx
    · obtain ⟨set, hset, hiter⟩ := h.holds x hx
      have hkey : x.key ≠ key := by
        intro heq
        rw [heq, hk] at hset
        cases hset
      exact ⟨set, (Function.update_of_ne hkey ..).trans hset, hiter⟩
    · rw [List.mem_singleton.mp hx]
      exact ⟨_, Function.update_self .., rfl⟩
  entry := by
    intro k set hset
    rw [Reassembler.setTimeout] at hset ⊢
    by_cases hkey : k = key
    · exact ⟨_, List.mem_append_right _ (List.mem_singleton_self _), hkey.symm⟩
    · dsimp only at hset
      rw [Function.update_of_ne hkey] at hset
      obtain ⟨x, hx, hxkey⟩ := h.entry k set hset
      exact ⟨x, List.mem_append_left _ hx, hxkey⟩
  due := by
    intro x hx
    rcases List.mem_append.mp hx with hx | hx
    · exact h.due x hx
    · rw [List.mem_singleton.mp hx]
      exact ⟨Nat.le_add_right .., rfl, le_refl _⟩
  iters := by
    rw [Reassembler.setTimeout, List.map_append, ← List.append_assoc, List.range_succ]
    exact h.iters.append_right _
  drops := h.drops

theorem Scheduled.setTimeout (h : Scheduled s) (hk : Kept s s.timeoutEventList)
    (ipHeader : Ipv4Header) (iif : ℕ) : Scheduled (s.setTimeout key ipHeader iif) where
  ahead := by
    intro p hp
    rw [Reassembler.setTimeout] at hp ⊢
    dsimp only at hp ⊢
    split_ifs at hp
    · rcases List.mem_cons.mp hp with rfl | hp
      · exact Nat.le_add_right ..
      · exact h.ahead p hp
    · exact h.ahead p hp
  served := by
    intro x hx
    rw [Reassembler.setTimeout] at hx ⊢
    dsimp only at hx ⊢
    by_cases hnil : s.timeoutEventList = []
    · rw [hnil] at hx
      rw [if_pos hnil, List.mem_singleton.mp hx]
      exact ⟨_, List.mem_cons_self, le_refl _⟩
    · rw [if_neg hnil]
      rcases List.mem_append.mp hx with hx | hx
      · exact h.served x hx
      · -- the event for any older entry comes early enough
        obtain ⟨y, hy⟩ := List.exists_mem_of_ne_nil _ hnil
        obtain ⟨p, hp, hle⟩ := h.served y hy
        have := hk.due y hy
        rw [List.mem_singleton.mp hx]
        exact ⟨p, hp, by dsimp only; omega⟩

end Entries

structure Steady (s : Reassembler α) : Prop where
  kept : Kept s s.timeoutEventList
  scheduled : Scheduled s
  piles : Piles s

section Arrivals

theorem addToSet_spec (hk : Kept s s.timeoutEventList) (hs : Scheduled s)
    (hset : s.fragments d.header.key = some set)
    (hpiled : ∀ key' set', key' ≠ d.header.key → s.fragments key' = some set' →
      set'.fragments.Piled)
    (hsorted : set.fragments.fragments.Pairwise fun a b => a.2 ≤ b.2)
    (hsmall : ∀ e ∈ set.fragments.fragments, e.1.length + e.2 < 65536)
    (hd : d.header.fragmentOffset + d.payload.length < 65536) :
    ∃ r, s.addToSet set d = some r ∧ Steady r.1 ∧ r.1.dropped = s.dropped := by
  rw [addToSet]
  split_ifs with hentire
  · obtain ⟨before, e, after, hl, hkey, hiter⟩ := hk.split hset
    have hk' := hk
    rw [hl] at hk'
    rw [← hiter, hk'.eraseTimeout hl, Option.map_some]
    refine ⟨_, rfl, ⟨?_, ⟨hs.ahead, ?_⟩, ?_⟩, rfl⟩
    · have hiters : (s.completed ++ [e.iter] ++ s.dropped.map fun d => d.entry.iter).Perm
          (s.completed ++ s.dropped.map (fun d => d.entry.iter) ++ [e.iter]) := by
        rw [List.append_assoc, List.append_assoc]
        exact List.perm_append_comm.append_left _
      have hremove := hk'.remove hiters hk.drops (before ++ after)
      rw [hkey] at hremove
      exact hremove
    · intro x hx
      apply hs.served x
      rw [hl]
      apply List.mem_append.mpr
      exact (List.mem_append.mp hx).imp_right (List.mem_cons_of_mem e)
    · intro k set' hset'
      dsimp only at hset'
      by_cases heq : k = d.header.key
      · rw [heq, Function.update_self] at hset'
        cases hset'
      · rw [Function.update_of_ne heq] at hset'
        exact hpiled k set' heq hset'
  · refine ⟨_, rfl, ⟨hk.refill hset _, ⟨hs.ahead, hs.served⟩, ?_⟩, rfl⟩
    intro k set' hset'
    dsimp only at hset'
    by_cases heq : k = d.header.key
    · rw [heq, Function.update_self] at hset'
      cases hset'
      exact piled_addFragment hsorted hsmall hd hentire
    · rw [Function.update_of_ne heq] at hset'
      exact hpiled k set' heq hset'

theorem Steady.processFragment (h : Steady s) (iif : ℕ)
    (hd : d.header.fragmentOffset + d.payload.length < 65536) :
    ∃ r, s.processFragment d iif = some r ∧ Steady r.1 ∧ r.1.dropped = s.dropped := by
  rw [Reassembler.processFragment]
  cases hset : s.fragments d.header.key with
  | none =>
    apply addToSet_spec (h.kept.setTimeout hset d.header iif)
      (h.scheduled.setTimeout h.kept d.header iif) _ _ _ _ hd
    · exact Function.update_self ..
    · intro k set' hne hset'
      rw [Reassembler.setTimeout] at hset'
      dsimp only at hset'
      rw [Function.update_of_ne hne] at hset'
      exact h.piles k set' hset'
    · exact List.Pairwise.nil
    · exact nofun
  | some set =>
    have hp := h.piles _ set hset
    apply addToSet_spec h.kept h.scheduled hset _ hp.sorted hp.small hd
    exact fun k set' _ hset' => h.piles k set' hset'

end Arrivals

section Expiry

def Clear (s : Reassembler α) (l : List TimeoutEntry) : Prop :=
  ∀ e ∈ l, e.deadline = s.now → ∀ set, s.fragments e.key = some set →
    NoneInside set.fragments.fragments 0

theorem Kept.handleFragmentsTimeout (h : Kept s (e :: l)) (hp : Piles s)
    (he : e.deadline = s.now) :
    ∃ set, s.fragments e.key = some set ∧
      s.handleFragmentsTimeout e = some { s with
        fragments := Function.update s.fragments e.key none
        dropped := s.dropped ++ [⟨e, s.now, set.fragments, set.fragments.getPartialPacket⟩] } ∧
      Kept { s with
        fragments := Function.update s.fragments e.key none
        dropped := s.dropped ++
          [⟨e, s.now, set.fragments, set.fragments.getPartialPacket⟩] } l := by
  obtain ⟨set, hset, hiter⟩ := h.holds e List.mem_cons_self
  refine ⟨set, hset, ?_, ?_⟩
  · rw [Reassembler.handleFragmentsTimeout, hset, Option.map_some]
  · have h' : Kept s ([] ++ e :: l) := h
    apply h'.remove _ _ s.timeoutEventList
    · rw [List.map_append, ← List.append_assoc]
      exact List.Perm.refl _
    · intro d hd
      rcases List.mem_append.mp hd with hd | hd
      · exact h.drops d hd
      · rw [List.mem_singleton.mp hd]
        exact ⟨he.symm, (h.due e List.mem_cons_self).2.1, (hp _ set hset).incomplete⟩

structure Expired (s : Reassembler α) (l : List TimeoutEntry) (s' : Reassembler α) : Prop where
  kept : Kept s' s'.timeoutEventList
  piles : Piles s'
  now : s'.now = s.now
  pending : s'.pending = s.pending
  later : ∀ e ∈ s'.timeoutEventList, s.now < e.deadline
  whole : Whole s' ↔ Whole s ∧ Clear s l

theorem expireLoop_spec (h : Kept s l) (hp : Piles s) :
    ∃ s', expireLoop l s = some s' ∧ Expired s l s' := by
  induction l generalizing s with
  | nil =>
    refine ⟨_, rfl, ⟨h.sorted, h.keys, h.holds, h.entry, h.due, h.iters, h.drops⟩, hp, rfl, rfl,
      nofun, ?_⟩
    exact (and_iff_left nofun).symm
  | cons e rest ih =>
    obtain ⟨hfirst, -⟩ := List.pairwise_cons.mp h.sorted
    rw [expireLoop]
    by_cases he : e.deadline = s.now
    · obtain ⟨set, hset, hrun, hkept⟩ := h.handleFragmentsTimeout hp he
      have hothers : ∀ x ∈ rest, x.key ≠ e.key := by
        have h' : Kept s ([] ++ e :: rest) := h
        exact fun x hx => (h'.others x hx).1
      rw [if_pos he, hrun, Option.bind_eq_bind, Option.bind_some]
      have hpiles : Piles { s with
          fragments := Function.update s.fragments e.key none
          dropped := s.dropped ++
            [⟨e, s.now, set.fragments, set.fragments.getPartialPacket⟩] } := by
        intro k set' hset'
        dsimp only at hset'
        by_cases heq : k = e.key
        · rw [heq, Function.update_self] at hset'
          cases hset'
        · rw [Function.update_of_ne heq] at hset'
          exact hp k set' hset'
      obtain ⟨s', hs', hexp⟩ := ih hkept hpiles
      refine ⟨s', hs', hexp.kept, hexp.piles, hexp.now, hexp.pending, hexp.later, ?_⟩
      rw [hexp.whole]
      have hclear : Clear { s with
          fragments := Function.update s.fragments e.key none
          dropped := s.dropped ++
            [⟨e, s.now, set.fragments, set.fragments.getPartialPacket⟩] } rest ↔
          Clear s rest := by
        apply forall₂_congr
        intro x hx
        dsimp only
        rw [Function.update_of_ne (hothers x hx)]
      have hwhole : Whole { s with
          fragments := Function.update s.fragments e.key none
          dropped := s.dropped ++
            [⟨e, s.now, set.fragments, set.fragments.getPartialPacket⟩] } ↔
          Whole s ∧ NoneInside set.fragments.fragments 0 := by
        rw [← (hp _ _ hset).getPartialPacket, Whole, List.forall_mem_append,
          List.forall_mem_singleton]
        rfl
      have hcons : Clear s (e :: rest) ↔
          NoneInside set.fragments.fragments 0 ∧ Clear s rest := by
        rw [Clear, List.forall_mem_cons]
        apply and_congr_left'
        constructor
        · exact fun hall => hall he set hset
        · intro hin _ set' hset'
          cases hset.symm.trans hset'
          exact hin
      rw [hclear, hwhole, hcons, and_assoc]
    · have hlater : ∀ x ∈ e :: rest, s.now < x.deadline := by
        have := (h.due e List.mem_cons_self).1
        intro x hx
        rcases List.mem_cons.mp hx with rfl | hx
        · omega
        · have := hfirst x hx
          omega
      rw [if_neg he]
      refine ⟨_, rfl, ⟨h.sorted, h.keys, h.holds, h.entry, h.due, h.iters, h.drops⟩, hp, rfl, rfl,
        hlater, ?_⟩
      apply (and_iff_left _).symm
      intro x hx hdue
      have := hlater x hx
      omega

theorem handleTimeout_spec (h : Kept s s.timeoutEventList) (ha : ∀ p ∈ s.pending, s.now ≤ p)
    (hp : Piles s) :
    ∃ s', s.handleTimeout = some s' ∧ Steady s' ∧
      (Whole s' ↔ Whole s ∧ Clear s s.timeoutEventList) := by
  obtain ⟨s', hs', hexp⟩ := expireLoop_spec h hp
  have ha' : ∀ p ∈ s'.pending, s'.now ≤ p := by
    rw [hexp.now, hexp.pending]
    exact ha
  rw [handleTimeout, hs', Option.bind_eq_bind, Option.bind_some]
  cases hl : s'.timeoutEventList with
  | nil =>
    refine ⟨s', rfl, ⟨hexp.kept, ⟨ha', ?_⟩, hexp.piles⟩, hexp.whole⟩
    rw [hl]
    exact nofun
  | cons e rest =>
    have hkept := hexp.kept
    rw [hl] at hkept
    have hle : s'.now ≤ e.deadline := (hkept.due e List.mem_cons_self).1
    dsimp only
    rw [if_pos hle]
    refine ⟨_, rfl, ⟨?_, ⟨?_, ?_⟩, hexp.piles⟩, hexp.whole⟩
    · exact ⟨hkept.sorted, hkept.keys, hkept.holds, hkept.entry, hkept.due, hkept.iters,
        hkept.drops⟩
    · exact List.forall_mem_cons.mpr ⟨hle, ha'⟩
    · intro x hx
      refine ⟨e.deadline, List.mem_cons_self, ?_⟩
      rcases List.mem_cons.mp hx with rfl | hx
      · exact le_refl _
      · exact (List.pairwise_cons.mp hkept.sorted).1 x hx

end Expiry

section Runs

def Clean (s : Reassembler α) : TimerEvent α → Prop
  | .fire => Clear s s.timeoutEventList
  | _ => True

theorem Steady.step (h : Steady s) {e : TimerEvent α} (he : s.Enabled e) :
    ∃ s', s.step e = some s' ∧ Steady s' ∧ (Whole s' ↔ Whole s ∧ Clean s e) := by
  cases e with
  | arrive d iif =>
    obtain ⟨r, hr, hsteady, hdropped⟩ := h.processFragment iif he
    rw [Reassembler.step, hr, Option.map_some]
    refine ⟨r.1, rfl, hsteady, ?_⟩
    rw [Whole, hdropped]
    exact (and_iff_left trivial).symm
  | tick t =>
    have hk := h.kept
    refine ⟨_, rfl, ⟨⟨hk.sorted, hk.keys, hk.holds, hk.entry, ?_, hk.iters, hk.drops⟩,
      ⟨he.2, h.scheduled.served⟩, h.piles⟩, (and_iff_left trivial).symm⟩
    intro x hx
    obtain ⟨p, hp, hle⟩ := h.scheduled.served x hx
    obtain ⟨-, hdeadline, hcreated⟩ := hk.due x hx
    exact ⟨le_trans (he.2 p hp) hle, hdeadline, le_trans hcreated he.1⟩
  | fire =>
    have hk := h.kept
    apply handleTimeout_spec (s := { s with pending := s.pending.erase s.now })
    · exact ⟨hk.sorted, hk.keys, hk.holds, hk.entry, hk.due, hk.iters, hk.drops⟩
    · exact fun p hp => h.scheduled.ahead p (List.mem_of_mem_erase hp)
    · exact h.piles

theorem machine_next {e : TimerEvent α} {s' : Reassembler α} (h : s.step e = some s') :
    machine.next s e = s' := by
  change (s.step e).getD s = s'
  rw [h, Option.getD_some]

theorem steady_new (now expiration : ℕ) : Steady (new now expiration : Reassembler α) where
  kept := ⟨List.Pairwise.nil, List.nodup_nil, nofun, nofun, nofun, List.Perm.refl _, nofun⟩
  scheduled := ⟨nofun, nofun⟩
  piles := nofun

structure InStep (s : Reassembler α) : Prop where
  sorted : s.timeoutEventList.Pairwise fun a b => a.deadline ≤ b.deadline
  one_entry : ∀ key, (s.timeoutEventList.map TimeoutEntry.key).count key =
    if (s.fragments key).isSome then 1 else 0
  own_entry : ∀ key set, s.fragments key = some set →
    ∃ e ∈ s.timeoutEventList, e.key = key ∧ e.iter = set.timeoutIter
  pending : ∀ e ∈ s.timeoutEventList.head?, ∃ p ∈ s.pending, s.now ≤ p ∧ p ≤ e.deadline
  not_overdue : ∀ e ∈ s.timeoutEventList,
    s.now ≤ e.deadline ∧ e.deadline = e.created + s.expiration
  own_deadline : ∀ d ∈ s.dropped, d.time = d.entry.deadline ∧
    d.entry.deadline = d.entry.created + s.expiration
  not_completed : ∀ d ∈ s.dropped, d.entry.iter ∉ s.completed ∧ d.fragments.isEntire = false
  partial_packet : ∀ d ∈ s.dropped, d.packet ≠ none
  goes_on : ∀ e, s.Enabled e → (s.step e).isSome

theorem Steady.inStep_iff (h : Steady s) : InStep s ↔ Whole s := by
  refine ⟨fun hi => hi.partial_packet, fun hw => ?_⟩
  have hk := h.kept
  refine ⟨hk.sorted, ?_, ?_, ?_, ?_, ?_, ?_, hw, ?_⟩
  · intro key
    rw [List.Nodup.count hk.keys]
    congr 1
    rw [eq_iff_iff, List.mem_map]
    constructor
    · intro hmem
      obtain ⟨e, he, rfl⟩ := hmem
      obtain ⟨set, hset, -⟩ := hk.holds e he
      rw [hset, Option.isSome_some]
    · intro hsome
      obtain ⟨set, hset⟩ := Option.isSome_iff_exists.mp hsome
      exact hk.entry key set hset
  · intro key set hset
    obtain ⟨e, he, hkey⟩ := hk.entry key set hset
    obtain ⟨set', hset', hiter⟩ := hk.holds e he
    rw [hkey, hset] at hset'
    cases hset'
    exact ⟨e, he, hkey, hiter.symm⟩
  · intro e he
    obtain ⟨p, hp, hle⟩ := h.scheduled.served e (List.mem_of_mem_head? he)
    exact ⟨p, hp, h.scheduled.ahead p hp, hle⟩
  · exact fun e he => ⟨(hk.due e he).1, (hk.due e he).2.1⟩
  · exact fun d hd => ⟨(hk.drops d hd).1, (hk.drops d hd).2.1⟩
  · intro d hd
    refine ⟨fun hmem => ?_, (hk.drops d hd).2.2⟩
    have hnodup := hk.iters.nodup_iff.mpr List.nodup_range
    have hdisj := (List.nodup_append.mp (List.nodup_append.mp hnodup).1).2.2
    exact hdisj _ hmem _ (List.mem_map_of_mem hd) rfl
  · intro e he
    obtain ⟨s', hs', -⟩ := h.step he
    rw [hs', Option.isSome_some]

end Runs

section Cases

def piece (off : ℕ) (len : ℕ) : TimerEvent ℕ :=
  .arrive ⟨List.replicate len 0, ⟨1, 2, 3, 17, len, off, true⟩⟩ 0

end Cases

end Reassembler
end NetGymSim.Internet.Ipv4L3Protocol

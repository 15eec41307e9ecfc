import Mathlib.Logic.Function.Basic
import NetGymSim.Lib.Machine
import NetGymSim.Network.TagListOps

/-!
# Runs of packet tag lists

A family of lists behaves as so many maps from the type of a tag to its data, whatever chains they
share. In every run each cell counts its links and is freed, once, when it has none.
-/

namespace NetGymSim.Network
open NetGymSim.Lib

inductive TagListEvent
  | construct
  | copy (o : ℕ)
  | assign (i o : ℕ)
  | add (i : ℕ) (tag : Tag)
  | remove (i tid : ℕ)
  | replace (i : ℕ) (tag : Tag)
  | peek (i tid : ℕ)
  | removeAll (i : ℕ)

structure TagListRun where
  lists : PacketTagLists
  results : List (Option (List UInt8))

structure TagMaps where
  count : ℕ
  map : ℕ → ℕ → Option (List UInt8)
  results : List (Option (List UInt8))

namespace PacketTagLists

def step (s : PacketTagLists) :
    TagListEvent → Option (PacketTagLists × Option (List UInt8))
  | .construct => some (construct s, none)
  | .copy o => (copy s o).map fun s => (s, none)
  | .assign i o => (assign s i o).map fun s => (s, none)
  | .add i tag => (add s i tag).map fun s => (s, none)
  | .remove i tid => remove s i tid
  | .replace i tag => replace s i tag
  | .peek i tid => (peek s i tid).map fun data => (s, data)
  | .removeAll i => (removeAll s i).map fun s => (s, none)

end PacketTagLists

namespace TagListRun

def start : TagListRun := ⟨PacketTagLists.start, []⟩

def machine : Machine TagListRun TagListEvent where
  enabled r e := (r.lists.step e).isSome
  next r e :=
    match r.lists.step e with
    | some (lists, data) => ⟨lists, r.results ++ [data]⟩
    | none => r

end TagListRun

namespace TagMaps

def start : TagMaps := ⟨0, fun _ _ => none, []⟩

def set (m : TagMaps) (i : ℕ) (f : ℕ → Option (List UInt8)) (data : Option (List UInt8)) :
    TagMaps :=
  { m with map := Function.update m.map i f, results := m.results ++ [data] }

def push (m : TagMaps) (f : ℕ → Option (List UInt8)) : TagMaps :=
  ⟨m.count + 1, Function.update m.map m.count f, m.results ++ [none]⟩

/-- The lists an operation is called for exist, the data of a tag has the size of its type, and
only a type that is absent is added. -/
def machine (width : ℕ → ℕ) : Machine TagMaps TagListEvent where
  enabled m
    | .construct => True
    | .copy o => o < m.count
    | .assign i o => i < m.count ∧ o < m.count
    | .add i tag => i < m.count ∧ tag.data.length = width tag.tid ∧ m.map i tag.tid = none
    | .remove i _ => i < m.count
    | .replace i tag => i < m.count ∧ tag.data.length = width tag.tid
    | .peek i _ => i < m.count
    | .removeAll i => i < m.count
  next m
    | .construct => m.push fun _ => none
    | .copy o => m.push (m.map o)
    | .assign i o => m.set i (m.map o) none
    | .add i tag => m.set i (Function.update (m.map i) tag.tid (some tag.data)) none
    | .remove i tid => m.set i (Function.update (m.map i) tid none) (m.map i tid)
    | .replace i tag =>
        m.set i (Function.update (m.map i) tag.tid (some tag.data))
          ((m.map i tag.tid).map fun _ => tag.data)
    | .peek i tid => { m with results := m.results ++ [m.map i tid] }
    | .removeAll i => m.set i (fun _ => none) none

instance (width : ℕ → ℕ) (m : TagMaps) (e : TagListEvent) :
    Decidable ((machine width).enabled m e) :=
  match e with
  | .construct => inferInstanceAs (Decidable True)
  | .copy _ | .remove _ _ | .peek _ _ | .removeAll _ => Nat.decLt _ _
  | .assign _ _ => inferInstanceAs (Decidable (_ < _ ∧ _ < _))
  | .add _ _ => inferInstanceAs (Decidable (_ < _ ∧ _ = _ ∧ _ = none))
  | .replace _ _ => inferInstanceAs (Decidable (_ < _ ∧ _ = _))

end TagMaps

namespace PacketTagLists
variable {s s' : PacketTagLists} {m : TagMaps} {width : ℕ → ℕ} {tags : List Tag} {tag : Tag}
  {f : ℕ → Option (List UInt8)} {i tid : ℕ}

/-- The tags are of different types and have the sizes of these, and the map finds their data. -/
structure Matches (width : ℕ → ℕ) (tags : List Tag) (f : ℕ → Option (List UInt8)) : Prop where
  nodup : (tags.map Tag.tid).Nodup
  size : ∀ t ∈ tags, t.data.length = width t.tid
  find : ∀ tid, f tid = (tags.find? fun t => t.tid = tid).map Tag.data

theorem Matches.nil : Matches width [] fun _ => none :=
  ⟨List.nodup_nil, nofun, fun _ => rfl⟩

theorem Matches.absent (h : Matches width tags f) :
    f tid = none ↔ ∀ t ∈ tags, t.tid ≠ tid := by
  rw [h.find, Option.map_eq_none_iff, List.find?_eq_none]
  simp

theorem Matches.cons (h : Matches width tags f) (hsize : tag.data.length = width tag.tid)
    (habsent : ∀ t ∈ tags, t.tid ≠ tag.tid) :
    Matches width (tag :: tags) (Function.update f tag.tid (some tag.data)) := by
  refine ⟨List.nodup_cons.mpr ⟨fun hmem => ?_, h.nodup⟩, fun t ht => ?_, fun tid => ?_⟩
  · obtain ⟨t, ht, htid⟩ := List.mem_map.mp hmem
    exact habsent t ht htid
  · cases List.mem_cons.mp ht with
    | inl heq => exact heq ▸ hsize
    | inr hmem => exact h.size t hmem
  · by_cases htid : tid = tag.tid
    · rw [htid, Function.update_self, List.find?_cons_of_pos (by simp)]
      rfl
    · rw [Function.update_of_ne htid, List.find?_cons_of_neg (by simpa using Ne.symm htid)]
      exact h.find tid

theorem changeFirst_sublist (tid : ℕ) (tags : List Tag) :
    (changeFirst tid (fun _ => []) tags).Sublist tags := by
  induction tags with
  | nil => exact .slnil
  | cons t tags ih =>
    rw [changeFirst]
    split_ifs
    · exact List.sublist_cons_self t tags
    · exact ih.cons_cons t

theorem find?_remove (hnodup : (tags.map Tag.tid).Nodup) (tid k : ℕ) :
    ((changeFirst tid (fun _ => []) tags).find? fun t => t.tid = k) =
      if k = tid then none else tags.find? fun t => t.tid = k := by
  induction tags with
  | nil => simp [changeFirst]
  | cons t tags ih =>
    rw [List.map_cons, List.nodup_cons] at hnodup
    rw [changeFirst]
    by_cases ht : t.tid = tid
    · rw [if_pos ht, List.nil_append]
      by_cases hk : k = tid
      · rw [if_pos hk, List.find?_eq_none]
        intro u hu
        have hne : u.tid ≠ t.tid := fun heq => hnodup.1 (heq ▸ List.mem_map_of_mem hu)
        simpa [hk, ← ht] using hne
      · rw [if_neg hk, List.find?_cons_of_neg (by simpa [ht] using Ne.symm hk)]
    · rw [if_neg ht]
      by_cases htk : t.tid = k
      · have hk : k ≠ tid := fun heq => ht (htk.trans heq)
        rw [List.find?_cons_of_pos (by simpa using htk), if_neg hk,
          List.find?_cons_of_pos (by simpa using htk)]
      · rw [List.find?_cons_of_neg (by simpa using htk),
          List.find?_cons_of_neg (by simpa using htk)]
        exact ih hnodup.2

theorem Matches.remove (h : Matches width tags f) (tid : ℕ) :
    Matches width (changeFirst tid (fun _ => []) tags) (Function.update f tid none) := by
  have hsub := changeFirst_sublist tid tags
  refine ⟨h.nodup.sublist (hsub.map Tag.tid), fun t ht => h.size t (hsub.subset ht),
    fun k => ?_⟩
  rw [find?_remove h.nodup]
  by_cases hk : k = tid
  · rw [hk, Function.update_self, if_pos rfl]
    rfl
  · rw [Function.update_of_ne hk, if_neg hk, h.find]

theorem changeFirst_replace (tag : Tag) (tags : List Tag) :
    (changeFirst tag.tid (fun _ => [tag]) tags).map Tag.tid = tags.map Tag.tid ∧
      ∀ t ∈ changeFirst tag.tid (fun _ => [tag]) tags, t = tag ∨ t ∈ tags := by
  induction tags with
  | nil => exact ⟨rfl, nofun⟩
  | cons t tags ih =>
    rw [changeFirst]
    by_cases ht : t.tid = tag.tid
    · rw [if_pos ht, List.singleton_append]
      refine ⟨by rw [List.map_cons, List.map_cons, ht], fun u hu => ?_⟩
      exact (List.mem_cons.mp hu).imp id (List.mem_cons_of_mem t)
    · rw [if_neg ht]
      refine ⟨by rw [List.map_cons, List.map_cons, ih.1], fun u hu => ?_⟩
      cases List.mem_cons.mp hu with
      | inl heq => exact .inr (heq ▸ List.mem_cons_self)
      | inr hmem => exact (ih.2 u hmem).imp id (List.mem_cons_of_mem t)

theorem find?_replace (hpresent : ∃ t ∈ tags, t.tid = tag.tid) (k : ℕ) :
    ((changeFirst tag.tid (fun _ => [tag]) tags).find? fun t => t.tid = k) =
      if k = tag.tid then some tag else tags.find? fun t => t.tid = k := by
  induction tags with
  | nil =>
    obtain ⟨t, ht, _⟩ := hpresent
    cases ht
  | cons t tags ih =>
    rw [changeFirst]
    by_cases ht : t.tid = tag.tid
    · rw [if_pos ht, List.singleton_append]
      by_cases hk : k = tag.tid
      · rw [if_pos hk, List.find?_cons_of_pos (by simpa using hk.symm)]
      · rw [if_neg hk, List.find?_cons_of_neg (by simpa using Ne.symm hk),
          List.find?_cons_of_neg (by simpa [ht] using Ne.symm hk)]
    · rw [if_neg ht]
      by_cases htk : t.tid = k
      · have hk : k ≠ tag.tid := fun heq => ht (htk.trans heq)
        rw [List.find?_cons_of_pos (by simpa using htk), if_neg hk,
          List.find?_cons_of_pos (by simpa using htk)]
      · rw [List.find?_cons_of_neg (by simpa using htk),
          List.find?_cons_of_neg (by simpa using htk)]
        apply ih
        obtain ⟨u, hu, hutid⟩ := hpresent
        refine ⟨u, (List.mem_cons.mp hu).resolve_left fun heq => ht ?_, hutid⟩
        rw [← heq, hutid]

theorem Matches.replace (h : Matches width tags f) (hsize : tag.data.length = width tag.tid) :
    Matches width (if ∃ t ∈ tags, t.tid = tag.tid
        then changeFirst tag.tid (fun _ => [tag]) tags else tag :: tags)
      (Function.update f tag.tid (some tag.data)) := by
  split_ifs with hpresent
  · obtain ⟨htids, hmem⟩ := changeFirst_replace tag tags
    refine ⟨htids ▸ h.nodup, fun t ht => ?_, fun k => ?_⟩
    · cases hmem t ht with
      | inl heq => exact heq ▸ hsize
      | inr hold => exact h.size t hold
    · rw [find?_replace hpresent]
      by_cases hk : k = tag.tid
      · rw [hk, Function.update_self, if_pos rfl]
        rfl
      · rw [Function.update_of_ne hk, if_neg hk, h.find]
  · exact h.cons hsize fun t ht htid => hpresent ⟨t, ht, htid⟩

structure Refines (width : ℕ → ℕ) (m : TagMaps) (r : TagListRun) : Prop where
  sound : r.lists.Sound
  length : r.lists.heads.length = m.count
  shows : ∀ i < m.count, ∃ tags, r.lists.Shows i tags ∧ Matches width tags (m.map i)
  results : r.results = m.results

theorem Refines.set {r : TagListRun} {data : Option (List UInt8)} (h : Refines width m r)
    (hresults : Results r.lists s' i tags) (hmatches : Matches width tags f) :
    Refines width (m.set i f data) ⟨s', r.results ++ [data]⟩ := by
  refine ⟨hresults.sound, hresults.keeps.length.trans h.length, fun j hj => ?_,
    congrArg (· ++ [data]) h.results⟩
  show ∃ tags, s'.Shows j tags ∧ Matches width tags (Function.update m.map i f j)
  by_cases hij : j = i
  · rw [hij, Function.update_self]
    exact ⟨tags, hresults.shows, hmatches⟩
  · rw [Function.update_of_ne hij]
    obtain ⟨old, hshows, hold⟩ := h.shows j hj
    exact ⟨old, hresults.keeps.shows hij hshows, hold⟩

theorem Refines.push {r : TagListRun} (h : Refines width m r) (hjoins : Joins r.lists s' tags)
    (hmatches : Matches width tags f) :
    Refines width (m.push f) ⟨s', r.results ++ [none]⟩ := by
  refine ⟨hjoins.sound, by rw [hjoins.length, h.length]; rfl, fun j hj => ?_,
    congrArg (· ++ [none]) h.results⟩
  show ∃ tags, s'.Shows j tags ∧ Matches width tags (Function.update m.map m.count f j)
  by_cases hij : j = m.count
  · rw [hij, Function.update_self, ← h.length]
    exact ⟨tags, hjoins.shows, hmatches⟩
  · rw [Function.update_of_ne hij]
    obtain ⟨old, hshows, hold⟩ := h.shows j (Nat.lt_of_le_of_ne (Nat.lt_succ_iff.mp hj) hij)
    exact ⟨old, hjoins.kept j old hshows, hold⟩

theorem start_sound : SharedChains.Sound start := by
  refine ⟨fun a => rfl, fun a c hc => ?_, fun i p hp => ?_, List.nodup_nil, fun a => ?_⟩
  · cases hc
  · cases hp
  · exact iff_of_false List.not_mem_nil fun h => Nat.not_lt_zero a h.1

theorem Refines.step {r : TagListRun} (h : Refines width m r) {e : TagListEvent}
    (he : (TagMaps.machine width).enabled m e) :
    ∃ lists data, r.lists.step e = some (lists, data) ∧
      Refines width ((TagMaps.machine width).next m e) ⟨lists, r.results ++ [data]⟩ := by
  cases e with
  | construct => exact ⟨_, _, rfl, h.push (construct_spec h.sound) .nil⟩
  | copy o =>
    obtain ⟨tags, hshows, hmatches⟩ := h.shows o he
    obtain ⟨s', hs', hjoins⟩ := copy_spec h.sound hshows
    exact ⟨s', none, congrArg (Option.map _) hs', h.push hjoins hmatches⟩
  | assign i o =>
    obtain ⟨old, hold, _⟩ := h.shows i he.1
    obtain ⟨tags, hshows, hmatches⟩ := h.shows o he.2
    obtain ⟨s', hs', hresults⟩ := assign_spec h.sound hold hshows
    exact ⟨s', none, congrArg (Option.map _) hs', h.set hresults hmatches⟩
  | add i tag =>
    obtain ⟨hi, hsize, habsent⟩ := he
    obtain ⟨tags, hshows, hmatches⟩ := h.shows i hi
    have hnone := hmatches.absent.mp habsent
    obtain ⟨s', hs', hresults⟩ := add_spec h.sound hshows hnone
    exact ⟨s', none, congrArg (Option.map _) hs', h.set hresults (hmatches.cons hsize hnone)⟩
  | remove i tid =>
    obtain ⟨tags, hshows, hmatches⟩ := h.shows i he
    obtain ⟨s', hs', hresults⟩ := remove_spec h.sound hshows tid
    rw [← hmatches.find] at hs'
    exact ⟨s', _, hs', h.set hresults (hmatches.remove tid)⟩
  | replace i tag =>
    obtain ⟨hi, hsize⟩ := he
    obtain ⟨tags, hshows, hmatches⟩ := h.shows i hi
    obtain ⟨s', hs', hresults⟩ := replace_spec h.sound hshows fun t ht htid => by
      rw [hmatches.size t ht, htid, hsize]
    have hfound : (tags.find? fun t => t.tid = tag.tid).map (fun _ => tag.data) =
        (m.map i tag.tid).map fun _ => tag.data := by
      rw [hmatches.find, Option.map_map]
      rfl
    rw [hfound] at hs'
    exact ⟨s', _, hs', h.set hresults (hmatches.replace hsize)⟩
  | peek i tid =>
    obtain ⟨tags, hshows, hmatches⟩ := h.shows i he
    have hpeek := peek_spec tid hshows
    rw [← hmatches.find] at hpeek
    exact ⟨r.lists, _, congrArg (Option.map _) hpeek, h.sound, h.length, h.shows,
      congrArg (· ++ [m.map i tid]) h.results⟩
  | removeAll i =>
    obtain ⟨tags, hshows, _⟩ := h.shows i he
    obtain ⟨s', hs', hresults, _⟩ := removeAll_spec h.sound hshows
    exact ⟨s', none, congrArg (Option.map _) hs', h.set hresults .nil⟩

/-- In every run the lists find what independent maps find; the count of each cell is the number
of its links, and the cells that were freed, each once, are those with none. -/
theorem tagLists_runs {es : List TagListEvent}
    (hes : (TagMaps.machine width).Permits TagMaps.start es) :
    let m := (TagMaps.machine width).exec TagMaps.start es
    ∃ r, TagListRun.machine.Reaches TagListRun.start es r ∧ r.results = m.results ∧
      r.lists.heads.length = m.count ∧
      (∀ i < m.count, ∀ tid, peek r.lists i tid = some (m.map i tid)) ∧
      (∀ a c, r.lists.cell a = some c → c.count = r.lists.links a) ∧
      r.lists.freed.Nodup ∧
      ∀ a < r.lists.cells.length, a ∈ r.lists.freed ↔ r.lists.links a = 0 := by
  intro m
  have hstart : Refines width TagMaps.start TagListRun.start :=
    ⟨start_sound, rfl, fun i hi => absurd hi (Nat.not_lt_zero i), rfl⟩
  obtain ⟨r, hr, href⟩ := hes.reaches.simulate (N := TagListRun.machine)
    (R := fun m r => Refines width m r) hstart fun m r e h he => by
      obtain ⟨lists, data, hstep, hnext⟩ := h.step he
      refine ⟨Option.isSome_iff_exists.mpr ⟨_, hstep⟩, ?_⟩
      simpa only [TagListRun.machine, hstep] using hnext
  have hcounts : ∀ a c, r.lists.cell a = some c → c.count = r.lists.links a := by
    intro a c hc
    have hcount : (r.lists.countOf a : ℤ) = r.lists.links a + 0 := href.sound.counts a
    rw [SharedChains.countOf, hc, Option.elim_some] at hcount
    omega
  refine ⟨r, hr, href.results, href.length, fun i hi tid => ?_, hcounts,
    href.sound.gone.nodup, fun a ha => ?_⟩
  · obtain ⟨tags, hshows, hmatches⟩ := href.shows i hi
    rw [hmatches.find]
    exact peek_spec tid hshows
  · rw [href.sound.gone.mem, and_iff_right ha]
    have hcount : (r.lists.countOf a : ℤ) = r.lists.links a + 0 := href.sound.counts a
    cases hc : r.lists.cell a with
    | none =>
      rw [SharedChains.countOf, hc, Option.elim_none] at hcount
      exact iff_of_true rfl (by omega)
    | some c =>
      have hpos := href.sound.live a c hc
      have hlinks := hcounts a c hc
      exact iff_of_false (Option.some_ne_none c) (by omega)

/-- Two lists share their tags; one replaces a tag, the other removes it. -/
def sharedTags : List TagListEvent :=
  [.construct, .add 0 ⟨7, [1]⟩, .add 0 ⟨8, [2]⟩, .copy 0, .replace 1 ⟨7, [3]⟩, .peek 0 7,
    .peek 1 7, .remove 0 7, .removeAll 1]

theorem tagLists_runs_shared :
    ∃ r, TagListRun.machine.Reaches TagListRun.start sharedTags r ∧
      r.results = [none, none, none, none, some [3], some [1], some [3], some [1], none] := by
  have hes : (TagMaps.machine fun _ => 1).Permits TagMaps.start sharedTags := by decide
  obtain ⟨r, hr, hresults, _⟩ := tagLists_runs hes
  exact ⟨r, hr, hresults.trans (by decide)⟩

end PacketTagLists
end NetGymSim.Network

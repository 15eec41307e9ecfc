import NetGymSim.NetworkGym.DataProcessor
import Mathlib.Data.List.Nodup
import Mathlib.Data.List.Induction
import Mathlib.Order.Defs.LinearOrder
import Mathlib.Order.Basic

/-!
# What the merged message contains

The samples of a batch are what its entries say about one identifier each. Merging keeps the
entries of the list apart and sorted and adds the samples of each entry, unless the joined name
of the entry is there for another source and name, or the list is empty from the start.
-/

namespace NetGymSim.NetworkGym
namespace Measurement
variable {V : Type}

section Samples

def key (m : Measurement V) : String × String := (m.source, m.name)

def samples (m : Measurement V) : List (String × String × ℕ × V) :=
  (m.id.zip m.value).map fun (id, value) => (m.source, m.name, id, value)

def Single (m : Measurement V) : Prop := ∃ id value, m.id = [id] ∧ m.value = [value]

structure Aligned (m : Measurement V) : Prop where
  length : m.id.length = m.value.length
  sorted : m.id.Pairwise (· ≤ ·)

variable {m it j merged : Measurement V} {id x : ℕ} {ids : List ℕ} {v : V} {values : List V}

theorem sortedIndex_le (id : ℕ) (ids : List ℕ) : sortedIndex id ids ≤ ids.length := by
  induction ids with
  | nil => exact Nat.le_refl 0
  | cons x ids ih =>
    unfold sortedIndex
    split
    · exact Nat.zero_le _
    · exact Nat.succ_le_succ ih

theorem insertIdx_sorted (hs : ids.Pairwise (· ≤ ·)) :
    (ids.insertIdx (sortedIndex id ids) id).Pairwise (· ≤ ·) := by
  induction ids with
  | nil => exact List.pairwise_singleton _ _
  | cons x ids ih =>
    obtain ⟨hx, hrest⟩ := List.pairwise_cons.mp hs
    unfold sortedIndex
    by_cases hlt : x > id
    · rw [if_pos hlt, List.insertIdx_zero]
      refine List.pairwise_cons.mpr ⟨fun y hy => ?_, hs⟩
      rcases List.mem_cons.mp hy with heq | hy
      · exact heq ▸ Nat.le_of_lt hlt
      · exact Nat.le_trans (Nat.le_of_lt hlt) (hx y hy)
    · rw [if_neg hlt, List.insertIdx_succ_cons]
      refine List.pairwise_cons.mpr ⟨fun y hy => ?_, ih hrest⟩
      rcases List.mem_cons.mp ((List.perm_insertIdx _ _ (sortedIndex_le id ids)).mem_iff.mp hy)
        with rfl | hy
      · exact Nat.le_of_not_lt hlt
      · exact hx y hy

theorem zip_insertIdx_perm {i : ℕ} (hl : ids.length = values.length) (hi : i ≤ ids.length) :
    ((ids.insertIdx i id).zip (values.insertIdx i v)).Perm ((id, v) :: ids.zip values) := by
  induction i generalizing ids values with
  | zero => exact .refl _
  | succ i ih =>
    cases ids with
    | nil => exact absurd hi (Nat.not_succ_le_zero i)
    | cons x ids =>
      cases values with
      | nil => cases hl
      | cons w values =>
        rw [List.insertIdx_succ_cons, List.insertIdx_succ_cons, List.zip_cons_cons,
          List.zip_cons_cons]
        exact ((ih (Nat.succ.inj hl) (Nat.le_of_succ_le_succ hi)).cons _).trans (.swap _ _ _)

theorem insertSorted_spec (ha : it.Aligned) (hj : j.Single) (hkey : it.key = j.key) :
    ∃ merged, it.insertSorted j = some merged ∧ merged.key = it.key ∧ merged.ts = it.ts ∧
      merged.Aligned ∧ merged.samples.Perm (j.samples ++ it.samples) := by
  obtain ⟨id, value, hid, hvalue⟩ := hj
  have hindex := sortedIndex_le id it.id
  have hmerged : it.insertSorted j = some { it with
      id := it.id.insertIdx (sortedIndex id it.id) id
      value := it.value.insertIdx (sortedIndex id it.id) value } := by
    rw [insertSorted, hid, hvalue]
    rfl
  refine ⟨_, hmerged, rfl, rfl, ⟨?_, ?_⟩, ?_⟩
  · change (it.id.insertIdx _ _).length = (it.value.insertIdx _ _).length
    rw [List.length_insertIdx_of_le_length hindex,
      List.length_insertIdx_of_le_length (ha.length ▸ hindex), ha.length]
  · exact insertIdx_sorted ha.sorted
  · have hsample : j.samples = [(it.source, it.name, id, value)] := by
      have hs : it.source = j.source := congrArg Prod.fst hkey
      have hn : it.name = j.name := congrArg Prod.snd hkey
      rw [samples, hid, hvalue, hs, hn]
      rfl
    rw [hsample]
    exact (zip_insertIdx_perm ha.length hindex).map _

theorem Single.aligned (hj : j.Single) : j.Aligned := by
  obtain ⟨id, value, hid, hvalue⟩ := hj
  refine ⟨by rw [hid, hvalue]; rfl, ?_⟩
  rw [hid]
  exact List.pairwise_singleton _ _

theorem sourceAndName_congr (h : it.key = j.key) : it.sourceAndName = j.sourceAndName := by
  have hs : it.source = j.source := congrArg Prod.fst h
  have hn : it.name = j.name := congrArg Prod.snd h
  rw [sourceAndName, sourceAndName, hs, hn]

theorem key_of_sourceAndName (hs : it.source = j.source)
    (h : it.sourceAndName = j.sourceAndName) : it.key = j.key := by
  unfold sourceAndName at h
  rw [hs, String.append_right_inj] at h
  exact Prod.ext hs h

end Samples

section Steps
variable {j it : Measurement V} {stats stats' : List (Measurement V)} {names names' : List String}

def allSamples (stats : List (Measurement V)) : List (String × String × ℕ × V) :=
  stats.flatMap samples

/-- The list of statistics beside the names that it was given. -/
structure Merging (stats : List (Measurement V)) (names : List String) : Prop where
  aligned : ∀ it ∈ stats, it.Aligned
  names : ∀ name, name ∈ names ↔ ∃ it ∈ stats, it.sourceAndName = name
  apart : ∀ it ∈ stats, ∀ it' ∈ stats, it.sourceAndName = it'.sourceAndName → it.key = it'.key

theorem Merging.known {stats : List (Measurement V)} {names : List String}
    (h : Merging stats names) {j : Measurement V} (hin : j.key ∈ stats.map key) :
    j.sourceAndName ∈ names := by
  obtain ⟨it, hit, hk⟩ := List.mem_map.mp hin
  exact (h.names _).mpr ⟨it, hit, sourceAndName_congr hk⟩

/-- What an entry does: it joins the entry with its key, it is lost, or it is put behind. -/
inductive Merged (j : Measurement V) (stats : List (Measurement V)) (names : List String) :
    List (Measurement V) → List String → Prop
  | joined {stats' : List (Measurement V)} (hmem : j.key ∈ stats.map key)
      (hkeys : stats'.map key = stats.map key) (haligned : ∀ it ∈ stats', it.Aligned)
      (hsamples : (allSamples stats').Perm (j.samples ++ allSamples stats)) :
      Merged j stats names stats' names
  | lost (hmem : j.key ∉ stats.map key) (hlost : j.sourceAndName ∈ names ∨ stats = []) :
      Merged j stats names stats names
  | added (hmem : j.key ∉ stats.map key) (hname : j.sourceAndName ∉ names) :
      Merged j stats names (stats ++ [j]) (names ++ [j.sourceAndName])

theorem mergeInto_spec (haligned : ∀ it ∈ stats, it.Aligned) (hj : j.Single)
    (hnames : j.key ∈ stats.map key → j.sourceAndName ∈ names)
    (h : mergeInto names j stats = some (stats', names')) : Merged j stats names stats' names' := by
  induction stats generalizing stats' names' with
  | nil =>
    cases h
    exact .lost List.not_mem_nil (.inr rfl)
  | cons it rest ih =>
    have hrestAligned : ∀ it ∈ rest, it.Aligned := fun m hm =>
      haligned m (List.mem_cons_of_mem it hm)
    unfold mergeInto at h
    by_cases hsame : it.source = j.source ∧ it.name = j.name
    · have hkey : it.key = j.key := Prod.ext hsame.1 hsame.2
      rw [if_pos hsame] at h
      split at h
      · cases h
      obtain ⟨merged, hmerged, hmkey, _, hmaligned, hmsamples⟩ :=
        insertSorted_spec (haligned it List.mem_cons_self) hj hkey
      rw [hmerged] at h
      cases h
      refine .joined (hkey ▸ List.mem_cons_self) ?_ ?_ ?_
      · rw [List.map_cons, List.map_cons, hmkey]
      · intro m hm
        rcases List.mem_cons.mp hm with rfl | hm
        · exact hmaligned
        · exact hrestAligned m hm
      · rw [allSamples, allSamples, List.flatMap_cons, List.flatMap_cons, ← List.append_assoc]
        exact hmsamples.append_right _
    · have hkey : j.key ≠ it.key := fun heq =>
        hsame ⟨(congrArg Prod.fst heq).symm, (congrArg Prod.snd heq).symm⟩
      have hmem : j.key ∈ (it :: rest).map key ↔ j.key ∈ rest.map key := by
        rw [List.map_cons, List.mem_cons, or_iff_right hkey]
      rw [if_neg hsame] at h
      by_cases hname : j.sourceAndName ∉ names
      · rw [if_pos hname] at h
        cases h
        exact .added (mt hnames hname) hname
      · rw [if_neg hname, Option.map_eq_some_iff] at h
        obtain ⟨⟨rest', names''⟩, hrest, heq⟩ := h
        cases heq
        cases ih hrestAligned (fun hin => hnames (hmem.mpr hin)) hrest with
        | joined hin hkeys hal hsamples =>
          refine .joined (hmem.mpr hin) ?_ ?_ ?_
          · rw [List.map_cons, List.map_cons, hkeys]
          · intro m hm
            rcases List.mem_cons.mp hm with rfl | hm
            · exact haligned m List.mem_cons_self
            · exact hal m hm
          · rw [allSamples, allSamples, List.flatMap_cons, List.flatMap_cons]
            refine (hsamples.append_left _).trans ?_
            rw [← List.append_assoc, ← List.append_assoc]
            exact List.perm_append_comm.append_right _
        | lost hnot _ => exact .lost (mt hmem.mp hnot) (.inl (not_not.mp hname))
        | added _ hnew => exact absurd hnew hname

theorem Merged.merging (hm : Merged j stats names stats' names') (hj : j.Single)
    (h : Merging stats names) : Merging stats' names' := by
  cases hm with
  | joined _ hkeys haligned _ =>
    have hin : ∀ k, (∃ it ∈ stats', it.key = k) ↔ ∃ it ∈ stats, it.key = k := by
      intro k
      rw [← List.mem_map, ← List.mem_map, hkeys]
    refine ⟨haligned, fun name => ?_, fun it hit it' hit' hname => ?_⟩
    · rw [h.names]
      constructor
      · rintro ⟨m, hm, rfl⟩
        obtain ⟨m', hm', hk⟩ := (hin m.key).mpr ⟨m, hm, rfl⟩
        exact ⟨m', hm', sourceAndName_congr hk⟩
      · rintro ⟨m, hm, rfl⟩
        obtain ⟨m', hm', hk⟩ := (hin m.key).mp ⟨m, hm, rfl⟩
        exact ⟨m', hm', sourceAndName_congr hk⟩
    · obtain ⟨m, hm, hk⟩ := (hin it.key).mp ⟨it, hit, rfl⟩
      obtain ⟨m', hm', hk'⟩ := (hin it'.key).mp ⟨it', hit', rfl⟩
      rw [← hk, ← hk']
      refine h.apart m hm m' hm' ?_
      rw [sourceAndName_congr hk, sourceAndName_congr hk', hname]
  | lost => exact h
  | added _ hnew =>
    have hne : ∀ it ∈ stats, it.sourceAndName ≠ j.sourceAndName := fun it hit heq =>
      hnew ((h.names _).mpr ⟨it, hit, heq⟩)
    refine ⟨fun it hit => ?_, fun name => ?_, fun it hit it' hit' hname => ?_⟩
    · rcases List.mem_append.mp hit with hit | hit
      · exact h.aligned it hit
      · exact List.mem_singleton.mp hit ▸ hj.aligned
    · rw [List.mem_append, List.mem_singleton, h.names]
      constructor
      · rintro (⟨it, hit, heq⟩ | rfl)
        · exact ⟨it, List.mem_append_left _ hit, heq⟩
        · exact ⟨j, List.mem_append_right _ (List.mem_singleton_self j), rfl⟩
      · rintro ⟨it, hit, heq⟩
        rcases List.mem_append.mp hit with hit | hit
        · exact .inl ⟨it, hit, heq⟩
        · exact .inr (List.mem_singleton.mp hit ▸ heq.symm)
    · rcases List.mem_append.mp hit with hold | hnew' <;>
        rcases List.mem_append.mp hit' with hold' | hnew''
      · exact h.apart it hold it' hold' hname
      · exact absurd (List.mem_singleton.mp hnew'' ▸ hname) (hne it hold)
      · exact absurd (List.mem_singleton.mp hnew' ▸ hname.symm) (hne it' hold')
      · rw [List.mem_singleton.mp hnew', List.mem_singleton.mp hnew'']

end Steps

section Runs
variable {j it : Measurement V} {stats stats' first others : List (Measurement V)}
  {names names' : List String} {batch : List (List (Measurement V))}

theorem Merged.keys_prefix (hm : Merged j stats names stats' names') :
    stats.map key <+: stats'.map key := by
  cases hm with
  | joined _ hkeys _ _ => exact hkeys ▸ List.prefix_refl _
  | lost => exact List.prefix_refl _
  | added => exact List.map_append (f := key) ▸ List.prefix_append _ _

theorem merging_run (hmerging : Merging stats names) (hsingle : ∀ j ∈ others, j.Single)
    (h : others.foldlM (fun (networkStats, nameList) j => mergeInto nameList j networkStats)
      (stats, names) = some (stats', names')) :
    Merging stats' names' ∧ stats.map key <+: stats'.map key ∧ (stats = [] → stats' = []) := by
  induction others generalizing stats names with
  | nil =>
    cases h
    exact ⟨hmerging, List.prefix_refl _, fun hempty => hempty⟩
  | cons j others ih =>
    rw [List.foldlM_cons, Option.bind_eq_bind, Option.bind_eq_some_iff] at h
    obtain ⟨⟨middle, names''⟩, hstep, hrest⟩ := h
    have hj := hsingle j List.mem_cons_self
    have hm := mergeInto_spec hmerging.aligned hj hmerging.known hstep
    obtain ⟨hm', hpre, hnil⟩ := ih (hm.merging hj hmerging)
      (fun j hin => hsingle j (List.mem_cons_of_mem _ hin)) hrest
    refine ⟨hm', hm.keys_prefix.trans hpre, fun hempty => hnil ?_⟩
    subst hempty
    cases hstep
    rfl

structure Progress (all stats : List (Measurement V)) (names : List String) : Prop where
  merging : Merging stats names
  grouped : (stats.map key).Nodup
  nonempty : stats ≠ []
  known : ∀ it ∈ stats, ∃ m ∈ all, m.key = it.key

variable {all : List (Measurement V)}

theorem Merged.progress (hm : Merged j stats names stats' names') (hp : Progress all stats names)
    (hj : j.Single) (hin : j ∈ all)
    (hapart : ∀ m ∈ all, ∀ m' ∈ all, m.sourceAndName = m'.sourceAndName → m.key = m'.key) :
    Progress all stats' names' ∧ (allSamples stats').Perm (j.samples ++ allSamples stats) := by
  have hmerging := hm.merging hj hp.merging
  have hnonempty : stats' ≠ [] := by
    rintro rfl
    have hnil := List.prefix_nil.mp hm.keys_prefix
    exact hp.nonempty (List.map_eq_nil_iff.mp hnil)
  cases hm with
  | joined hmem hkeys _ hsamples =>
    refine ⟨⟨hmerging, hkeys ▸ hp.grouped, hnonempty, fun it hit => ?_⟩, hsamples⟩
    have hold : it.key ∈ stats.map key := hkeys ▸ List.mem_map_of_mem hit
    obtain ⟨it', hit', hk⟩ := List.mem_map.mp hold
    exact hk ▸ hp.known it' hit'
  | lost hmem hlost =>
    exfalso
    rcases hlost with hname | hempty
    · obtain ⟨it, hit, heq⟩ := (hp.merging.names _).mp hname
      obtain ⟨m, hmall, hk⟩ := hp.known it hit
      have hkey : m.key = j.key := hapart m hmall j hin ((sourceAndName_congr hk).trans heq)
      exact hmem (List.mem_map.mpr ⟨it, hit, hk.symm.trans hkey⟩)
    · exact hp.nonempty hempty
  | added hmem _ =>
    refine ⟨⟨hmerging, ?_, hnonempty, fun it hit => ?_⟩, ?_⟩
    · rw [List.map_append, List.nodup_append]
      refine ⟨hp.grouped, List.nodup_singleton _, fun a ha b hb => ?_⟩
      rintro rfl
      exact hmem (List.mem_singleton.mp hb ▸ ha)
    · rcases List.mem_append.mp hit with hit | hit
      · exact hp.known it hit
      · exact ⟨j, hin, congrArg key (List.mem_singleton.mp hit).symm⟩
    · rw [allSamples, allSamples, List.flatMap_append, List.flatMap_singleton]
      exact List.perm_append_comm

theorem progress_run (hp : Progress all stats names)
    (hapart : ∀ m ∈ all, ∀ m' ∈ all, m.sourceAndName = m'.sourceAndName → m.key = m'.key)
    (hothers : ∀ j ∈ others, j.Single ∧ j ∈ all)
    (h : others.foldlM (fun (networkStats, nameList) j => mergeInto nameList j networkStats)
      (stats, names) = some (stats', names')) :
    Progress all stats' names' ∧
      (allSamples stats').Perm (allSamples stats ++ allSamples others) := by
  induction others generalizing stats names with
  | nil =>
    cases h
    exact ⟨hp, by rw [allSamples, allSamples, List.flatMap_nil, List.append_nil]⟩
  | cons j others ih =>
    rw [List.foldlM_cons, Option.bind_eq_bind, Option.bind_eq_some_iff] at h
    obtain ⟨⟨middle, names''⟩, hstep, hrest⟩ := h
    obtain ⟨hj, hin⟩ := hothers j List.mem_cons_self
    have hm := mergeInto_spec hp.merging.aligned hj hp.merging.known hstep
    obtain ⟨hp', hsamples⟩ := hm.progress hp hj hin hapart
    obtain ⟨hp'', hsamples'⟩ := ih hp' (fun j hj => hothers j (List.mem_cons_of_mem _ hj)) hrest
    refine ⟨hp'', hsamples'.trans ?_⟩
    have hall : allSamples (j :: others) = j.samples ++ allSamples others := List.flatMap_cons
    rw [hall, ← List.append_assoc]
    exact (hsamples.trans List.perm_append_comm).append_right _

end Runs

section Batch
variable {batch : List (List (Measurement V))} {msg first : List (Measurement V)}

structure Appended (batch : List (List (Measurement V))) : Prop where
  single : ∀ m ∈ batch.flatten, m.Single
  source : ∀ entries ∈ batch, ∀ m ∈ entries, ∀ m' ∈ entries, m.source = m'.source

/-- Every sample of the batch once, in one entry for its source and name, and in order. -/
structure Complete (batch : List (List (Measurement V))) (msg : List (Measurement V)) :
    Prop where
  samples : (allSamples msg).Perm (allSamples batch.flatten)
  grouped : (msg.map key).Nodup
  aligned : ∀ it ∈ msg, it.Aligned

/-- The first measurement is not the empty one of several and repeats no name, and joined names
tell all entries apart. -/
structure Mergeable (batch : List (List (Measurement V))) : Prop where
  first : batch.flatten = [] ∨ batch.headD [] ≠ []
  names : ((batch.headD []).map key).Nodup
  apart : ∀ m ∈ batch.flatten, ∀ m' ∈ batch.flatten,
    m.sourceAndName = m'.sourceAndName → m.key = m'.key

theorem mem_namesOf {name : String} :
    name ∈ namesOf first ↔ ∃ it ∈ first, it.sourceAndName = name := by
  unfold namesOf
  induction first using List.reverseRecOn with
  | nil => simp
  | append_singleton first it ih =>
    rw [List.foldl_append, List.foldl_cons, List.foldl_nil]
    split
    · rename_i hin
      rw [ih]
      constructor
      · rintro ⟨m, hm, rfl⟩
        exact ⟨m, List.mem_append_left _ hm, rfl⟩
      · rintro ⟨m, hm, rfl⟩
        rcases List.mem_append.mp hm with hm | hm
        · exact ⟨m, hm, rfl⟩
        · exact ih.mp (List.mem_singleton.mp hm ▸ hin)
    · rw [List.mem_append, ih, List.mem_singleton]
      constructor
      · rintro (⟨m, hm, rfl⟩ | rfl)
        · exact ⟨m, List.mem_append_left _ hm, rfl⟩
        · exact ⟨it, List.mem_append_right _ (List.mem_singleton_self it), rfl⟩
      · rintro ⟨m, hm, rfl⟩
        rcases List.mem_append.mp hm with hm | hm
        · exact .inl ⟨m, hm, rfl⟩
        · exact .inr (congrArg sourceAndName (List.mem_singleton.mp hm))

theorem merging_first (hsingle : ∀ m ∈ first, m.Single)
    (hsource : ∀ m ∈ first, ∀ m' ∈ first, m.source = m'.source) :
    Merging first (namesOf first) :=
  ⟨fun it hit => (hsingle it hit).aligned, fun _ => mem_namesOf,
    fun it hit it' hit' hname => key_of_sourceAndName (hsource it hit it' hit') hname⟩

theorem samples_ne_nil {m : Measurement V} (hm : m.Single) : m.samples ≠ [] := by
  obtain ⟨id, value, hid, hvalue⟩ := hm
  rw [samples, hid, hvalue]
  exact List.cons_ne_nil _ _

theorem Complete.key_mem (hc : Complete batch msg) {m : Measurement V} (hm : m ∈ batch.flatten)
    (hsingle : m.Single) : ∃ it ∈ msg, it.key = m.key := by
  obtain ⟨sample, hsample⟩ := List.exists_mem_of_ne_nil _ (samples_ne_nil hsingle)
  have hin : sample ∈ allSamples batch.flatten := List.mem_flatMap.mpr ⟨m, hm, hsample⟩
  obtain ⟨it, hit, hsample'⟩ := List.mem_flatMap.mp (hc.samples.mem_iff.mpr hin)
  obtain ⟨a, _, rfl⟩ := List.mem_map.mp hsample
  obtain ⟨b, _, hb⟩ := List.mem_map.mp hsample'
  have hs : it.source = m.source := congrArg Prod.fst hb
  have hn : it.name = m.name := congrArg (fun s => s.2.1) hb
  exact ⟨it, hit, Prod.ext hs hn⟩

theorem mergeBatch_complete_iff (ha : Appended batch) (h : mergeBatch batch = some msg) :
    Complete batch msg ↔ Mergeable batch := by
  rw [mergeBatch, Option.map_eq_some_iff] at h
  obtain ⟨⟨stats, names⟩, hrun, rfl⟩ := h
  have hflatten : batch.headD [] ++ batch.tail.flatten = batch.flatten := by
    cases batch with
    | nil => rfl
    | cons => exact List.flatten_cons.symm
  have hfirst : ∀ m ∈ batch.headD [], m ∈ batch.flatten := fun m hm =>
    hflatten ▸ List.mem_append_left _ hm
  have hothers : ∀ m ∈ batch.tail.flatten, m ∈ batch.flatten := fun m hm =>
    hflatten ▸ List.mem_append_right _ hm
  have hsource : ∀ m ∈ batch.headD [], ∀ m' ∈ batch.headD [], m.source = m'.source := by
    cases batch with
    | nil => exact fun m hm => absurd hm List.not_mem_nil
    | cons first rest => exact ha.source first List.mem_cons_self
  have hmerging := merging_first (fun m hm => ha.single m (hfirst m hm)) hsource
  obtain ⟨hmerged, hpre, hnil⟩ :=
    merging_run hmerging (fun m hm => ha.single m (hothers m hm)) hrun
  constructor
  · intro hc
    refine ⟨?_, hc.grouped.sublist hpre.sublist, fun m hm m' hm' hname => ?_⟩
    · by_contra hno
      rw [not_or, not_not] at hno
      obtain ⟨m, hm⟩ := List.exists_mem_of_ne_nil _ hno.1
      obtain ⟨it, hit, _⟩ := hc.key_mem hm (ha.single m hm)
      rw [hnil hno.2] at hit
      exact List.not_mem_nil hit
    · obtain ⟨it, hit, hk⟩ := hc.key_mem hm (ha.single m hm)
      obtain ⟨it', hit', hk'⟩ := hc.key_mem hm' (ha.single m' hm')
      rw [← hk, ← hk']
      refine hmerged.apart it hit it' hit' ?_
      rw [sourceAndName_congr hk, sourceAndName_congr hk', hname]
  · intro hm
    rcases hm.first with hempty | hne
    · rw [hempty, List.append_eq_nil_iff] at hflatten
      have hstats : stats = [] := hnil hflatten.1
      subst hstats
      exact ⟨hempty ▸ .refl _, List.nodup_nil, fun it hit => absurd hit List.not_mem_nil⟩
    · have hp : Progress batch.flatten (batch.headD []) (namesOf (batch.headD [])) :=
        ⟨hmerging, hm.names, hne, fun it hit => ⟨it, hfirst it hit, rfl⟩⟩
      obtain ⟨hp', hsamples⟩ :=
        progress_run hp hm.apart (fun j hj => ⟨ha.single j (hothers j hj), hothers j hj⟩) hrun
      refine ⟨?_, hp'.grouped, hp'.merging.aligned⟩
      have happend : allSamples (batch.headD [] ++ batch.tail.flatten) =
          allSamples (batch.headD []) ++ allSamples batch.tail.flatten := List.flatMap_append
      rw [← hflatten, happend]
      exact hsamples

end Batch

end Measurement

namespace DataProcessor
open Measurement
variable {V : Type}

structure Report (V : Type) where
  source : String
  id : ℕ
  ts : ℕ
  metrics : List (String × V)

def Report.stats (r : Report V) : NetworkStats V := .report r.source r.id r.ts r.metrics

def appendAll (p : DataProcessor V) (reports : List (Report V)) : DataProcessor V :=
  reports.foldl (fun p r => p.appendMeasurement r.stats) p

def batchOf (p : DataProcessor V) (reports : List (Report V)) : List (List (Measurement V)) :=
  reports.map fun r => r.stats.getJson.filter p.subscribed

variable {p p' : DataProcessor V} {msg : List (Measurement V)}

theorem report_data (r : Report V) : r.stats.data = r.metrics.map fun metric =>
    { source := r.source, id := [r.id], ts := r.ts, name := metric.1, value := [metric.2] } := by
  obtain ⟨source, id, ts, metrics⟩ := r
  have hsame : ∀ metrics : List (String × V),
      (NetworkStats.report source id ts metrics).source = source ∧
      (NetworkStats.report source id ts metrics).id = id ∧
      (NetworkStats.report source id ts metrics).ts = ts ∧
      (NetworkStats.report source id ts metrics).data = metrics.map fun metric =>
        { source, id := [id], ts, name := metric.1, value := [metric.2] } := by
    intro metrics
    induction metrics using List.reverseRecOn with
    | nil => exact ⟨rfl, rfl, rfl, rfl⟩
    | append_singleton metrics metric ih =>
      obtain ⟨hs, hi, ht, hd⟩ := ih
      unfold NetworkStats.report at hs hi ht hd ⊢
      rw [List.foldl_append, List.foldl_cons, List.foldl_nil]
      refine ⟨hs, hi, ht, ?_⟩
      rw [NetworkStats.append, hs, hi, ht, hd, List.map_append]
      rfl
  exact (hsame metrics).2.2.2

theorem appended_batchOf (p : DataProcessor V) (reports : List (Report V)) :
    Appended (p.batchOf reports) := by
  have hentry : ∀ entries ∈ p.batchOf reports, ∃ r : Report V, ∀ m ∈ entries,
      m.source = r.source ∧ m.Single := by
    intro entries hentries
    obtain ⟨r, _, rfl⟩ := List.mem_map.mp hentries
    refine ⟨r, fun m hm => ?_⟩
    have hdata : m ∈ r.stats.data := List.mem_of_mem_filter hm
    rw [report_data] at hdata
    obtain ⟨metric, _, rfl⟩ := List.mem_map.mp hdata
    exact ⟨rfl, r.id, metric.2, rfl, rfl⟩
  constructor
  · intro m hm
    obtain ⟨entries, hentries, hin⟩ := List.mem_flatten.mp hm
    obtain ⟨r, hr⟩ := hentry entries hentries
    exact (hr m hin).2
  · intro entries hentries m hm m' hm'
    obtain ⟨r, hr⟩ := hentry entries hentries
    rw [(hr m hm).1, (hr m' hm').1]

theorem appendAll_batch (hs : p.measurementStarted) (reports : List (Report V)) :
    (p.appendAll reports).measurementStarted ∧
      (p.appendAll reports).measurementBatch = p.measurementBatch ++ p.batchOf reports := by
  unfold appendAll
  induction reports generalizing p with
  | nil => exact ⟨hs, (List.append_nil _).symm⟩
  | cons r reports ih =>
    have happend : p.appendMeasurement r.stats = { p with
        measurementBatch := p.measurementBatch ++ [r.stats.getJson.filter p.subscribed]
        exchangePending := true } := by
      rw [appendMeasurement, hs]
      rfl
    rw [List.foldl_cons, happend]
    obtain ⟨hs', hb⟩ := ih (p := { p with
      measurementBatch := p.measurementBatch ++ [r.stats.getJson.filter p.subscribed]
      exchangePending := true }) hs
    exact ⟨hs', hb.trans (List.append_assoc _ _ _)⟩

/-- A message that is sent has the samples of all reports since the last exchange exactly when
their entries can be merged. -/
theorem exchange_complete_iff (hs : p.measurementStarted) (hb : p.measurementBatch = [])
    {reports : List (Report V)}
    (h : (p.appendAll reports).exchangeMeasurementAndAction = some (some msg, p')) :
    Complete (p.batchOf reports) msg ↔ Mergeable (p.batchOf reports) := by
  obtain ⟨hs', hbatch⟩ := appendAll_batch hs reports
  rw [hb, List.nil_append] at hbatch
  unfold exchangeMeasurementAndAction at h
  simp only [hs', hbatch, Bool.not_true, Bool.false_eq_true, if_false] at h
  split at h
  · cases h
  · obtain ⟨networkStats, hmerge, heq⟩ := Option.map_eq_some_iff.mp h
    cases heq
    exact mergeBatch_complete_iff (appended_batchOf p reports) hmerge

def subscriber : DataProcessor ℕ where
  subscribedMeasurement := ["wifi::rate", "lte::rate"]
  measurementStarted := true
  totalSteps := 10

theorem exchange_complete_two_sources : ∃ msg p',
    (subscriber.appendAll [⟨"wifi", 2, 5, [("rate", 7)]⟩, ⟨"lte", 1, 5, [("rate", 3)]⟩,
      ⟨"wifi", 1, 5, [("rate", 4)]⟩]).exchangeMeasurementAndAction = some (some msg, p') ∧
    Complete (subscriber.batchOf [⟨"wifi", 2, 5, [("rate", 7)]⟩, ⟨"lte", 1, 5, [("rate", 3)]⟩,
      ⟨"wifi", 1, 5, [("rate", 4)]⟩]) msg := by
  refine ⟨_, _, rfl, (exchange_complete_iff rfl rfl rfl).mpr ⟨?_, ?_, ?_⟩⟩
  · decide +kernel
  · decide +kernel
  · decide +kernel

/-- What follows a report without subscribed entries is lost. -/
theorem empty_report_first : ∃ p',
    (subscriber.appendAll [⟨"wifi", 2, 5, [("loss", 0)]⟩,
      ⟨"lte", 1, 5, [("rate", 3)]⟩]).exchangeMeasurementAndAction = some (some [], p') ∧
    ¬ Complete (subscriber.batchOf [⟨"wifi", 2, 5, [("loss", 0)]⟩, ⟨"lte", 1, 5, [("rate", 3)]⟩])
      [] := by
  refine ⟨_, rfl, fun hc => ?_⟩
  have hlen := hc.samples.length_eq
  revert hlen
  decide +kernel

end DataProcessor
end NetGymSim.NetworkGym

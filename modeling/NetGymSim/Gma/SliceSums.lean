import NetGymSim.Gma.GmaDataProcessor
import NetGymSim.Lib.ExceptFold
import NetGymSim.Lib.KeyedSums
import NetGymSim.NetworkGym.MeasurementMerge

/-!
# The sums of a slice

A run of reports leaves, for each name, the sums over the slices of the cell that came first, and
the single numbers of all other cells behind them. It is a table of sums just when the reports of a
name come from one cell.
-/

namespace NetGymSim.Gma
open NetGymSim.Lib NetGymSim.NetworkGym

/-- What a report adds: the number of a client for the slice and the cell it is in. -/
structure Contribution where
  source : String
  name : String
  ts : ℕ
  cell : ℤ
  slice : ℤ
  value : ℚ
  deriving DecidableEq

namespace Contribution

def names (c : Contribution) : String × String := (c.source, c.name)

def item (c : Contribution) : ℤ × ℚ := (c.slice, c.value)

end Contribution

namespace SliceMeasurement
variable {e e' : SliceMeasurement} {slice : List ℤ} {numbers : List ℚ} {sliceId : ℤ} {v : ℚ}

def names (e : SliceMeasurement) : String × String := (e.source, e.name)

theorem addToSlice_eq (h : slice.length = numbers.length) :
    addToSlice sliceId v slice numbers = .ok (addBeside sliceId v slice numbers) := by
  induction slice generalizing numbers with
  | nil =>
    cases numbers with
    | nil => rfl
    | cons x numbers => cases h
  | cons s slice ih =>
    cases numbers with
    | nil => cases h
    | cons x numbers =>
      rw [addToSlice, ih (Nat.succ.inj h)]
      rfl

structure Holds (e : SliceMeasurement) (group : List Contribution) (first : Contribution) :
    Prop where
  head : group.head? = some first
  id : e.id = first.cell :: (group.filter fun c => c.cell ≠ first.cell).map Contribution.cell
  value : ∃ slice numbers,
    e.value = .slices slice numbers ::
        (group.filter fun c => c.cell ≠ first.cell).map (CellValue.number ∘ Contribution.value) ∧
      HoldsSums slice numbers
        ((group.filter fun c => c.cell = first.cell).map Contribution.item)

theorem create_holds {m : Measurement ℚ} {c : Contribution} :
    Holds (create m c.cell c.slice [c.value]) [c] c where
  head := rfl
  id := by simp [create]
  value := ⟨[c.slice], [c.value], by simp [create], by
    simpa [Contribution.item] using HoldsSums.single c.slice c.value⟩

theorem add_names {cellId : ℤ} (hok : e.add cellId sliceId v = .ok e') : e'.names = e.names := by
  unfold SliceMeasurement.add at hok
  split at hok
  · cases hok
  · split at hok
    · split at hok
      · split at hok
        · obtain ⟨numbers, -, hok⟩ := map_eq_ok.mp hok
          cases hok
          rfl
        · cases hok
          rfl
      · cases hok
      · cases hok
    · cases hok
      rfl

theorem Holds.add {group : List Contribution} {first c : Contribution} (h : e.Holds group first)
    (hok : e.add c.cell c.slice c.value = .ok e') : e'.Holds (group ++ [c]) first := by
  obtain ⟨slice, numbers, hvalue, hsums⟩ := h.value
  have hhead : (group ++ [c]).head? = some first := by
    rw [List.head?_append, h.head]
    rfl
  unfold SliceMeasurement.add at hok
  simp only [h.id, hvalue] at hok
  by_cases hcell : c.cell = first.cell
  · rw [if_pos hcell] at hok
    have hothers : (group ++ [c]).filter (fun c => c.cell ≠ first.cell) =
        group.filter fun c => c.cell ≠ first.cell := by
      simp [hcell]
    have hown : ((group ++ [c]).filter fun c => c.cell = first.cell).map Contribution.item =
        ((group.filter fun c => c.cell = first.cell).map Contribution.item) ++
          [(c.slice, c.value)] := by
      simp [hcell, Contribution.item]
    by_cases hslice : c.slice ∈ slice
    · rw [if_pos hslice, addToSlice_eq hsums.length] at hok
      cases hok
      refine ⟨hhead, ?_, _, _, ?_, hown ▸ hsums.add hslice c.value⟩
      · rw [hothers, ← h.id]
      · rw [hothers]
    · rw [if_neg hslice] at hok
      cases hok
      refine ⟨hhead, ?_, _, _, ?_, hown ▸ hsums.append hslice c.value⟩
      · rw [hothers, ← h.id]
      · rw [hothers]
  · rw [if_neg hcell] at hok
    cases hok
    have hown : (group ++ [c]).filter (fun c => c.cell = first.cell) =
        group.filter fun c => c.cell = first.cell := by
      simp [hcell]
    refine ⟨hhead, ?_, slice, numbers, ?_, hown ▸ hsums⟩
    · simp [hcell]
    · simp [hcell]

end SliceMeasurement

structure SliceTable (more : List SliceMeasurement) (log : List Contribution) : Prop where
  nodup : (more.map SliceMeasurement.names).Nodup
  holds : ∀ e ∈ more, ∃ first, e.Holds (log.filter fun c => c.names = e.names) first
  covers : ∀ c ∈ log, c.names ∈ more.map SliceMeasurement.names

namespace SliceTable
variable {log : List Contribution}

theorem create {more : List SliceMeasurement} {m : Measurement ℚ} {c : Contribution}
    (h : SliceTable more log) (hm : m.source = c.source ∧ m.name = c.name)
    (hnew : c.names ∉ more.map SliceMeasurement.names) :
    SliceTable (more ++ [.create m c.cell c.slice [c.value]]) (log ++ [c]) := by
  have hnames : (SliceMeasurement.create m c.cell c.slice [c.value]).names = c.names := by
    simp [SliceMeasurement.create, SliceMeasurement.names, Contribution.names, hm]
  have hnone : log.filter (fun c' => c'.names = c.names) = [] := by
    rw [List.filter_eq_nil_iff]
    intro c' hc' heq
    exact hnew (of_decide_eq_true heq ▸ h.covers c' hc')
  refine ⟨?_, fun e he => ?_, fun c' hc' => ?_⟩
  · rw [List.map_append, List.map_singleton, hnames, List.nodup_append]
    refine ⟨h.nodup, List.nodup_singleton _, fun n hn n' hn' heq => hnew ?_⟩
    rwa [← List.mem_singleton.mp hn', ← heq]
  · rcases List.mem_append.mp he with he | he
    · have hne : c.names ≠ e.names := fun heq => hnew (heq ▸ List.mem_map_of_mem he)
      simpa [hne] using h.holds e he
    · rw [List.mem_singleton.mp he, hnames, List.filter_append, hnone]
      exact ⟨c, by simpa using SliceMeasurement.create_holds⟩
  · rw [List.map_append, List.map_singleton, hnames, List.mem_append, List.mem_singleton]
    rcases List.mem_append.mp hc' with hc' | hc'
    · exact .inl (h.covers c' hc')
    · exact .inr (List.mem_singleton.mp hc' ▸ rfl)

theorem add {more more' : List SliceMeasurement} {c : Contribution}
    {turn : SliceMeasurement → Except ProcessorFault SliceMeasurement}
    (h : SliceTable more log) (hknown : c.names ∈ more.map SliceMeasurement.names)
    (hturn : ∀ e e', turn e = .ok e' →
      (e.names = c.names → e.add c.cell c.slice c.value = .ok e') ∧ (e.names ≠ c.names → e' = e))
    (hok : more.mapM turn = .ok more') : SliceTable more' (log ++ [c]) := by
  have hsame : more'.map SliceMeasurement.names = more.map SliceMeasurement.names := by
    refine mapM_map_eq hok fun e e' heq => ?_
    by_cases hc : e.names = c.names
    · exact SliceMeasurement.add_names ((hturn e e' heq).1 hc)
    · rw [(hturn e e' heq).2 hc]
  refine ⟨hsame ▸ h.nodup, fun e' he' => ?_, fun c' hc' => ?_⟩
  · obtain ⟨e, he, heq⟩ := mapM_mem hok he'
    obtain ⟨first, hfirst⟩ := h.holds e he
    refine ⟨first, ?_⟩
    rw [List.filter_append]
    by_cases hc : e.names = c.names
    · have hadd := (hturn e e' heq).1 hc
      rw [SliceMeasurement.add_names hadd]
      simpa [hc] using (hc ▸ hfirst).add hadd
    · rw [(hturn e e' heq).2 hc]
      simpa [Ne.symm hc] using hfirst
  · rw [hsame]
    rcases List.mem_append.mp hc' with hc' | hc'
    · exact h.covers c' hc'
    · exact List.mem_singleton.mp hc' ▸ hknown

end SliceTable

namespace GmaDataProcessor
variable {p p' : GmaDataProcessor} {log : List Contribution} {m : Measurement ℚ} {cid : ℤ}
  {average : Bool}

def contribution (p : GmaDataProcessor) (cid : ℤ) (average : Bool) (m : Measurement ℚ) :
    Except ProcessorFault Contribution := do
  let (cell, slice) ← p.place m cid
  let value ← p.values m cid average
  match value with
  | [] => .error .outOfRange
  | v :: _ => return ⟨m.source, m.name, m.ts, cell, slice, v⟩

def contributed (p : GmaDataProcessor) (cid : ℤ) (average : Bool) (m : Measurement ℚ) :
    List Contribution :=
  if p.subscribed m then (p.contribution cid average m).toOption.toList else []

theorem values_single {v : ℚ} {value : List ℚ} (hm : m.value = [v])
    (hok : p.values m cid average = .ok value) : ∃ v', value = [v'] := by
  unfold values at hok
  rw [hm] at hok
  cases average with
  | false =>
    cases pure_eq_ok.mp hok
    exact ⟨v, rfl⟩
  | true =>
    obtain ⟨⟨cell, slice⟩, -, hok⟩ := bind_eq_ok.mp hok
    obtain ⟨counter, -, hok⟩ := bind_eq_ok.mp hok
    split_ifs at hok
    cases pure_eq_ok.mp hok
    exact ⟨_, rfl⟩

theorem sameName_iff {e : SliceMeasurement} :
    e.sameName m ↔ e.names = (m.source, m.name) := by
  show decide (m.source = e.source ∧ m.name = e.name) = true ↔ (e.source, e.name) = _
  rw [decide_eq_true_iff, Prod.mk.injEq, eq_comm (a := m.source), eq_comm (a := m.name)]

theorem addTo_eq_ok {e e' : SliceMeasurement} {c : Contribution} {value : List ℚ}
    (hc : p.contribution cid average m = .ok c) (hvalue : p.values m cid average = .ok value)
    (hok : p.addTo m cid value e = .ok e') :
    (e.names = c.names → e.add c.cell c.slice c.value = .ok e') ∧ (e.names ≠ c.names → e' = e) := by
  obtain ⟨⟨cell, slice⟩, hplace, hc⟩ := bind_eq_ok.mp hc
  obtain ⟨value', hvalue', hc⟩ := bind_eq_ok.mp hc
  obtain rfl : value = value' := Except.ok.inj (hvalue.symm.trans hvalue')
  unfold addTo at hok
  rw [hplace] at hok
  cases value with
  | nil => cases hc
  | cons v rest =>
    cases pure_eq_ok.mp hc
    constructor
    · intro hnames
      rw [if_pos (sameName_iff.mpr hnames)] at hok
      split_ifs at hok
      exact hok
    · intro hnames
      rw [if_neg (mt sameName_iff.mp hnames)] at hok
      exact (pure_eq_ok.mp hok).symm

theorem appendEntry_table (hm : m.Single) (h : SliceTable p.moreMeasurement log)
    (hok : p.appendEntry cid average m = .ok p') :
    ∃ more, p' = { p with moreMeasurement := more } ∧
      SliceTable more (log ++ p.contributed cid average m) := by
  unfold appendEntry at hok
  unfold contributed
  by_cases hsubscribed : p.subscribed m
  · rw [if_pos hsubscribed] at hok ⊢
    obtain ⟨value, hvalue, hok⟩ := bind_eq_ok.mp hok
    obtain ⟨id, v₀, hid, hv₀⟩ := hm
    obtain ⟨v, rfl⟩ := values_single hv₀ hvalue
    have hcontribution {cell slice : ℤ} (hplace : p.place m cid = .ok (cell, slice)) :
        p.contribution cid average m = .ok ⟨m.source, m.name, m.ts, cell, slice, v⟩ := by
      rw [contribution, hplace, hvalue]
      rfl
    split_ifs at hok with hknown
    · obtain ⟨more, hmore, hok⟩ := bind_eq_ok.mp hok
      obtain ⟨e, he, hsame⟩ := List.any_eq_true.mp hknown
      obtain ⟨e', he'⟩ := mapM_ok hmore he
      obtain ⟨⟨cell, slice⟩, hplace⟩ : ∃ place, p.place m cid = .ok place := by
        unfold addTo at he'
        rw [if_pos hsame] at he'
        split_ifs at he'
        obtain ⟨place, hplace, -⟩ := bind_eq_ok.mp he'
        exact ⟨place, hplace⟩
      have hc := hcontribution hplace
      refine ⟨more, (pure_eq_ok.mp hok).symm, ?_⟩
      rw [hc]
      refine h.add ?_ (fun e e' => addTo_eq_ok hc hvalue) hmore
      exact List.mem_map.mpr ⟨e, he, sameName_iff.mp hsame⟩
    · obtain ⟨⟨cell, slice⟩, hplace, hok⟩ := bind_eq_ok.mp hok
      refine ⟨_, (pure_eq_ok.mp hok).symm, ?_⟩
      rw [hcontribution hplace]
      refine h.create (c := ⟨m.source, m.name, m.ts, cell, slice, v⟩) ⟨rfl, rfl⟩ fun hmem =>
        hknown ?_
      obtain ⟨e, he, hnames⟩ := List.mem_map.mp hmem
      exact List.any_eq_true.mpr ⟨e, he, sameName_iff.mpr hnames⟩
  · rw [if_neg hsubscribed] at hok ⊢
    cases pure_eq_ok.mp hok
    exact ⟨_, rfl, by simpa using h⟩

section Runs

theorem appendEntries_table {entries : List (Measurement ℚ)} (hentries : ∀ m ∈ entries, m.Single)
    (h : SliceTable p.moreMeasurement log)
    (hok : entries.foldlM (fun p m => p.appendEntry cid average m) p = .ok p') :
    ∃ more, p' = { p with moreMeasurement := more } ∧
      SliceTable more (log ++ entries.flatMap (p.contributed cid average)) := by
  induction entries generalizing p log with
  | nil =>
    cases hok
    exact ⟨_, rfl, by simpa using h⟩
  | cons m entries ih =>
    rw [List.foldlM_cons, bind_eq_ok] at hok
    obtain ⟨p₁, hfirst, hrest⟩ := hok
    obtain ⟨more₁, rfl, htable₁⟩ :=
      appendEntry_table (hentries m List.mem_cons_self) h hfirst
    obtain ⟨more, hp', htable⟩ :=
      ih (fun m hm => hentries m (List.mem_cons_of_mem _ hm)) htable₁ hrest
    refine ⟨more, hp', ?_⟩
    rw [List.flatMap_cons, ← List.append_assoc]
    exact htable

/-- The places of the clients may change between the reports. -/
inductive SliceEvent
  | updateCellId (clientId cellId : ℕ) (cid : ℤ)
  | updateSliceId (clientId : ℕ) (sliceId : ℤ)
  | appendSliceMeasurement (report : DataProcessor.Report ℚ) (cid : ℤ) (average : Bool)

def step (p : GmaDataProcessor) : SliceEvent → Except ProcessorFault GmaDataProcessor
  | .updateCellId clientId cellId cid => return p.updateCellId clientId cellId cid
  | .updateSliceId clientId sliceId => return p.updateSliceId clientId sliceId
  | .appendSliceMeasurement report cid average =>
      p.appendSliceMeasurement report.stats cid average

def reported (p : GmaDataProcessor) : SliceEvent → List Contribution
  | .updateCellId _ _ _ => []
  | .updateSliceId _ _ => []
  | .appendSliceMeasurement report cid average =>
      if p.measurementStarted then report.stats.getJson.flatMap (p.contributed cid average) else []

def run (p : GmaDataProcessor) :
    List SliceEvent → Except ProcessorFault (GmaDataProcessor × List Contribution)
  | [] => return (p, [])
  | e :: events => do
      let p₁ ← p.step e
      let (p', later) ← run p₁ events
      return (p', p.reported e ++ later)

theorem step_table {e : SliceEvent} (h : SliceTable p.moreMeasurement log)
    (hok : p.step e = .ok p') : SliceTable p'.moreMeasurement (log ++ p.reported e) := by
  cases e with
  | updateCellId clientId cellId cid =>
    cases pure_eq_ok.mp hok
    rw [reported, List.append_nil]
    exact h
  | updateSliceId clientId sliceId =>
    cases pure_eq_ok.mp hok
    rw [reported, List.append_nil]
    exact h
  | appendSliceMeasurement report cid average =>
    unfold step appendSliceMeasurement at hok
    rw [reported]
    cases hstarted : p.measurementStarted with
    | false =>
      rw [hstarted] at hok
      cases pure_eq_ok.mp hok
      simpa using h
    | true =>
      rw [hstarted] at hok
      have hentries : ∀ m ∈ report.stats.getJson, m.Single := by
        intro m hm
        have hdata : m ∈ report.stats.data := hm
        rw [DataProcessor.report_data] at hdata
        obtain ⟨metric, -, rfl⟩ := List.mem_map.mp hdata
        exact ⟨report.id, metric.2, rfl, rfl⟩
      obtain ⟨more, rfl, htable⟩ := appendEntries_table hentries h hok
      exact htable

theorem run_table {events : List SliceEvent} {later : List Contribution}
    (h : SliceTable p.moreMeasurement log) (hok : p.run events = .ok (p', later)) :
    SliceTable p'.moreMeasurement (log ++ later) := by
  induction events generalizing p log later with
  | nil =>
    cases pure_eq_ok.mp hok
    rw [List.append_nil]
    exact h
  | cons e events ih =>
    obtain ⟨p₁, hstep, hok⟩ := bind_eq_ok.mp hok
    obtain ⟨⟨p₂, rest⟩, hrest, hok⟩ := bind_eq_ok.mp hok
    cases pure_eq_ok.mp hok
    rw [← List.append_assoc]
    exact ih (step_table h hstep) hrest

end Runs
end GmaDataProcessor

section Values

def CellValue.valuesAt : CellValue → Option ℤ → List ℚ
  | .slices slice numbers, some sliceId => beside slice numbers sliceId
  | .slices _ _, none => []
  | .number _, some _ => []
  | .number v, none => [v]

def SliceMeasurement.valuesAt (e : SliceMeasurement) (cell : ℤ) (slice : Option ℤ) : List ℚ :=
  (e.id.zip e.value).flatMap fun p => if p.1 = cell then p.2.valuesAt slice else []

def valuesAt (more : List SliceMeasurement) (names : String × String) (cell : ℤ)
    (slice : Option ℤ) : List ℚ :=
  (more.filter fun e => e.names = names).flatMap fun e => e.valuesAt cell slice

def contributionsTo (log : List Contribution) (names : String × String) (cell slice : ℤ) :
    List Contribution :=
  log.filter fun c => c.names = names ∧ c.cell = cell ∧ c.slice = slice

/-- There is one entry for each name, cell and slice with contributions, their sum, and no other
entry. -/
structure Summed (more : List SliceMeasurement) (log : List Contribution) : Prop where
  sums : ∀ names cell slice, valuesAt more names cell (some slice) =
    if contributionsTo log names cell slice = [] then []
    else [((contributionsTo log names cell slice).map Contribution.value).sum]
  sliced : ∀ names cell, valuesAt more names cell none = []

theorem Summed.perm {more : List SliceMeasurement} {log log' : List Contribution}
    (h : Summed more log) (hperm : log.Perm log') : Summed more log' where
  sums names cell slice := by
    have hto : (contributionsTo log names cell slice).Perm
        (contributionsTo log' names cell slice) := hperm.filter _
    have hnil : contributionsTo log names cell slice = [] ↔
        contributionsTo log' names cell slice = [] := by
      rw [← List.length_eq_zero_iff, ← List.length_eq_zero_iff, hto.length_eq]
    rw [h.sums, (hto.map Contribution.value).sum_eq, if_congr hnil rfl rfl]
  sliced := h.sliced

namespace SliceMeasurement.Holds
variable {e : SliceMeasurement} {group : List Contribution} {first : Contribution}

theorem valuesAt_eq (h : e.Holds group first) (cell : ℤ) (slice : Option ℤ) :
    ∃ slices numbers, HoldsSums slices numbers
        ((group.filter fun c => c.cell = first.cell).map Contribution.item) ∧
      e.valuesAt cell slice =
        (if first.cell = cell then (CellValue.slices slices numbers).valuesAt slice else []) ++
          (group.filter fun c => c.cell ≠ first.cell).flatMap fun c =>
            if c.cell = cell then (CellValue.number c.value).valuesAt slice else [] := by
  obtain ⟨slices, numbers, hvalue, hsums⟩ := h.value
  refine ⟨slices, numbers, hsums, ?_⟩
  rw [valuesAt, h.id, hvalue, List.zip_cons_cons, List.zip_map', List.flatMap_cons,
    List.flatMap_map]
  rfl

theorem valuesAt_some (h : e.Holds group first) (cell slice : ℤ) :
    e.valuesAt cell (some slice) =
      if first.cell = cell ∧ (group.filter fun c => c.cell = cell ∧ c.slice = slice) ≠ [] then
        [((group.filter fun c => c.cell = cell ∧ c.slice = slice).map Contribution.value).sum]
      else [] := by
  obtain ⟨slices, numbers, hsums, heq⟩ := h.valuesAt_eq cell (some slice)
  have hbare : ((group.filter fun c => c.cell ≠ first.cell).flatMap fun c =>
      if c.cell = cell then (CellValue.number c.value).valuesAt (some slice) else []) = [] := by
    rw [List.flatMap_eq_nil_iff]
    intro c _
    split_ifs <;> rfl
  rw [heq, hbare, List.append_nil]
  by_cases hcell : first.cell = cell
  · subst hcell
    have hown : (((group.filter fun c => c.cell = first.cell).map Contribution.item).filter
        fun item => item.1 = slice) =
          (group.filter fun c => c.cell = first.cell ∧ c.slice = slice).map Contribution.item := by
      rw [List.filter_map, List.filter_filter]
      refine congrArg _ (List.filter_congr fun c _ => ?_)
      rw [Function.comp_apply, Bool.and_comm, Bool.decide_and]
      rfl
    have hmem : slice ∈ ((group.filter fun c => c.cell = first.cell).map
        Contribution.item).map Prod.fst ↔ first.cell = first.cell ∧
          (group.filter fun c => c.cell = first.cell ∧ c.slice = slice) ≠ [] := by
      simp [Contribution.item, and_assoc]
    have hvalue : Prod.snd ∘ Contribution.item = Contribution.value := rfl
    rw [if_pos rfl, CellValue.valuesAt, hsums.beside,
      if_congr hmem rfl rfl, sumAt, hown, List.map_map, hvalue]
  · rw [if_neg hcell, if_neg fun h => hcell h.1]

theorem valuesAt_none (h : e.Holds group first) (cell : ℤ) :
    e.valuesAt cell none = [] ↔ ∀ c ∈ group, c.cell ≠ first.cell → c.cell ≠ cell := by
  obtain ⟨slices, numbers, -, heq⟩ := h.valuesAt_eq cell none
  have hslices : (CellValue.slices slices numbers).valuesAt none = [] := rfl
  rw [heq, hslices, ite_self, List.nil_append, List.flatMap_eq_nil_iff]
  constructor
  · intro hnil c hc hother hcell
    have hmem : c ∈ group.filter fun c => c.cell ≠ first.cell :=
      List.mem_filter.mpr ⟨hc, decide_eq_true hother⟩
    have hc' := hnil c hmem
    rw [if_pos hcell] at hc'
    cases hc'
  · intro hne c hc
    obtain ⟨hmem, hother⟩ := List.mem_filter.mp hc
    rw [if_neg (hne c hmem (of_decide_eq_true hother))]

end SliceMeasurement.Holds

namespace SliceTable
variable {more : List SliceMeasurement} {log : List Contribution}

theorem valuesAt_mem (h : SliceTable more log) {e : SliceMeasurement} (he : e ∈ more) (cell : ℤ)
    (slice : Option ℤ) : valuesAt more e.names cell slice = e.valuesAt cell slice := by
  rw [valuesAt, filter_key_eq h.nodup he]
  exact List.append_nil _

theorem valuesAt_none {names : String × String} (hnone : names ∉ more.map SliceMeasurement.names)
    (cell : ℤ) (slice : Option ℤ) : valuesAt more names cell slice = [] := by
  rw [valuesAt, List.filter_eq_nil_iff.mpr]
  · rfl
  · intro e he heq
    exact hnone (of_decide_eq_true heq ▸ List.mem_map_of_mem he)

theorem contributionsTo_eq (names : String × String) (cell slice : ℤ) :
    contributionsTo log names cell slice =
      (log.filter fun c => c.names = names).filter fun c => c.cell = cell ∧ c.slice = slice := by
  rw [contributionsTo, List.filter_filter]
  refine List.filter_congr fun c _ => ?_
  simp [Bool.and_comm, Bool.and_assoc]

def OneCell (log : List Contribution) : Prop :=
  ∀ c ∈ log, ∀ c' ∈ log, c.names = c'.names → c.cell = c'.cell

theorem first_mem {e : SliceMeasurement} {first : Contribution}
    (h : e.Holds (log.filter fun c => c.names = e.names) first) :
    first ∈ log ∧ first.names = e.names := by
  have hmem : first ∈ log.filter fun c => c.names = e.names := List.mem_of_mem_head? h.head
  exact ⟨(List.mem_filter.mp hmem).1, of_decide_eq_true (List.mem_filter.mp hmem).2⟩

theorem summed (h : SliceTable more log) (hcell : OneCell log) : Summed more log where
  sums names cell slice := by
    by_cases hnames : names ∈ more.map SliceMeasurement.names
    · obtain ⟨e, he, rfl⟩ := List.mem_map.mp hnames
      obtain ⟨first, hfirst⟩ := h.holds e he
      obtain ⟨hlog, hsame⟩ := first_mem hfirst
      rw [h.valuesAt_mem he, hfirst.valuesAt_some, contributionsTo_eq]
      by_cases hnil : ((log.filter fun c => c.names = e.names).filter fun c =>
          c.cell = cell ∧ c.slice = slice) = []
      · rw [if_neg fun h => h.2 hnil, if_pos hnil]
      · obtain ⟨c, hc⟩ := List.exists_mem_of_ne_nil _ hnil
        obtain ⟨hgroup, hplace⟩ := List.mem_filter.mp hc
        obtain ⟨hc, hnames⟩ := List.mem_filter.mp hgroup
        have hfirstCell : first.cell = cell := by
          rw [hcell first hlog c hc (hsame.trans (of_decide_eq_true hnames).symm)]
          exact (of_decide_eq_true hplace).1
        rw [if_pos ⟨hfirstCell, hnil⟩, if_neg hnil]
    · have hnil : contributionsTo log names cell slice = [] := by
        rw [contributionsTo, List.filter_eq_nil_iff]
        intro c hc heq
        exact hnames ((of_decide_eq_true heq).1 ▸ h.covers c hc)
      rw [valuesAt_none hnames, if_pos hnil]
  sliced names cell := by
    by_cases hnames : names ∈ more.map SliceMeasurement.names
    · obtain ⟨e, he, rfl⟩ := List.mem_map.mp hnames
      obtain ⟨first, hfirst⟩ := h.holds e he
      obtain ⟨hlog, hsame⟩ := first_mem hfirst
      rw [h.valuesAt_mem he, hfirst.valuesAt_none]
      intro c hc hother
      obtain ⟨hc, hnames⟩ := List.mem_filter.mp hc
      exact absurd (hcell c hc first hlog ((of_decide_eq_true hnames).trans hsame.symm)) hother
    · exact valuesAt_none hnames cell none

theorem oneCell (h : SliceTable more log) (hsummed : Summed more log) : OneCell log := by
  have hfirst (c : Contribution) (hc : c ∈ log) {e : SliceMeasurement} {first : Contribution}
      (he : e ∈ more) (hnames : e.names = c.names)
      (hholds : e.Holds (log.filter fun c => c.names = e.names) first) :
      c.cell = first.cell := by
    by_contra hother
    have hnone := hsummed.sliced e.names c.cell
    rw [h.valuesAt_mem he, hholds.valuesAt_none] at hnone
    exact hnone c (List.mem_filter.mpr ⟨hc, decide_eq_true hnames.symm⟩) hother rfl
  intro c hc c' hc' hnames
  obtain ⟨e, he, hname⟩ := List.mem_map.mp (h.covers c hc)
  obtain ⟨first, hholds⟩ := h.holds e he
  rw [hfirst c hc he hname hholds, hfirst c' hc' he (hname.trans hnames) hholds]

end SliceTable
end Values

namespace GmaDataProcessor

def rateOf (clientId : ℕ) (rate : ℚ) (cid : ℤ) : SliceEvent :=
  .appendSliceMeasurement ⟨"gma", clientId, 100, [("dl::rate", rate)]⟩ cid false

def twoCells : GmaDataProcessor where
  subscribedMeasurement := ["gma::dl::rate"]
  clientIdToSliceIdMap := [(0, 0), (1, 0)]
  clientIdToCellIdMap := fun key => some (key.1 + 1)

end GmaDataProcessor
end NetGymSim.Gma

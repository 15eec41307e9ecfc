import NetGymSim.Gma.NsPfRuns
import Mathlib.Data.List.Nodup
import Mathlib.Data.List.Perm.Basic
import Mathlib.Data.List.Perm.Subperm
import Mathlib.Data.List.Sublists

/-!
# Slice updates one at a time

Each update is checked against the RBGs of the cell as soon as it is written, with the other
slices as the updates before it left them. Orders that pass every check end alike, and no order
fails exactly when every part of the updates leaves the slices within the cell.
-/

namespace NetGymSim.Gma
open NetGymSim.Lib

/-- The new number of one attribute of one slice. -/
structure SliceUpdate where
  slice : ℤ
  type : SliceAttr
  value : ℤ

namespace SliceUpdate

def action (u : SliceUpdate) : SliceAction := ⟨[u.slice], [u.value]⟩

def target (u : SliceUpdate) : ℤ × SliceAttr := (u.slice, u.type)

def writeSlice (u : SliceUpdate) (slice : ℕ × SliceInfo) : ℕ × SliceInfo :=
  (slice.1,
    (if (slice.1 : ℤ) = u.slice then slice.2.set u.type u.value else slice.2).recount)

def write (slices : List (ℕ × SliceInfo)) (u : SliceUpdate) : List (ℕ × SliceInfo) :=
  slices.map u.writeSlice

theorem recount_set_set {t t' : SliceAttr} (h : t ≠ t') (info : SliceInfo) (v v' : ℤ) :
    ((info.set t v).recount.set t' v').recount = ((info.set t' v').recount.set t v).recount := by
  cases t with
  | d =>
    cases t' with
    | d => exact absurd rfl h
    | p => rfl
    | s => rfl
  | p =>
    cases t' with
    | d => rfl
    | p => exact absurd rfl h
    | s => rfl
  | s =>
    cases t' with
    | d => rfl
    | p => rfl
    | s => exact absurd rfl h

theorem recount_set_recount (t : SliceAttr) (info : SliceInfo) (v : ℤ) :
    (info.recount.set t v).recount = (info.set t v).recount := by
  cases t with
  | d => rfl
  | p => rfl
  | s => rfl

theorem recount_recount (info : SliceInfo) : info.recount.recount = info.recount := rfl

theorem writeSlice_comm {u u' : SliceUpdate} (h : u.target ≠ u'.target) (slice : ℕ × SliceInfo) :
    u'.writeSlice (u.writeSlice slice) = u.writeSlice (u'.writeSlice slice) := by
  unfold writeSlice
  by_cases hu : (slice.1 : ℤ) = u.slice
  · by_cases hu' : (slice.1 : ℤ) = u'.slice
    · have htype : u.type ≠ u'.type := by
        intro heq
        exact h (Prod.ext (hu.symm.trans hu') heq)
      simp only [if_pos hu, if_pos hu']
      rw [recount_set_set htype]
    · simp only [if_pos hu, if_neg hu']
      rw [recount_recount, recount_set_recount]
  · by_cases hu' : (slice.1 : ℤ) = u'.slice
    · simp only [if_neg hu, if_pos hu']
      rw [recount_recount, recount_set_recount]
    · simp only [if_neg hu, if_neg hu']

theorem write_comm {u u' : SliceUpdate} (h : u.target ≠ u'.target)
    (slices : List (ℕ × SliceInfo)) : write (write slices u) u' = write (write slices u') u := by
  rw [write, write, write, write, List.map_map, List.map_map]
  apply List.map_congr_left
  intro slice _
  exact writeSlice_comm h slice

theorem foldl_write_perm {us us' : List SliceUpdate} (hn : (us.map target).Nodup)
    (h : us.Perm us') (slices : List (ℕ × SliceInfo)) :
    us.foldl write slices = us'.foldl write slices := by
  apply h.foldl_eq'
  intro u hu u' hu' slices
  by_cases heq : u.target = u'.target
  · rw [List.inj_on_of_nodup_map hn hu hu' heq]
  · exact write_comm heq slices

end SliceUpdate

namespace NsPfScheduler
variable {R : Type} {s s' : NsPfScheduler R} {us us' : List SliceUpdate}

def Fits (s : NsPfScheduler R) (slices : List (ℕ × SliceInfo)) : Prop :=
  totalScheduledRbg slices ≤ rbgNumInt s.dlBandwidth

def updateSlices (s : NsPfScheduler R) (us : List SliceUpdate) : Except Fault (NsPfScheduler R) :=
  us.foldlM (fun s u => s.updateSliceInfo u.action u.type) s

theorem apply_action (u : SliceUpdate) (slice : ℕ × SliceInfo) :
    u.action.apply u.type slice = .ok (u.writeSlice slice) := by
  have hlen : ¬ u.action.slice.length ≠ u.action.value.length := not_not_intro rfl
  have hvalue : u.action.value ≠ [] := List.cons_ne_nil _ _
  rw [SliceAction.apply, if_neg hvalue, if_neg hlen, SliceUpdate.action, SliceUpdate.writeSlice]
  by_cases hu : u.slice = (slice.1 : ℤ)
  · simp [hu]
    rfl
  · simp [hu, Ne.symm hu]
    rfl

theorem updateSliceInfo_ok {u : SliceUpdate} :
    s.updateSliceInfo u.action u.type = .ok s' ↔
      s.Fits (SliceUpdate.write s.sliceInfoMap u) ∧
        s' = { s with sliceInfoMap := SliceUpdate.write s.sliceInfoMap u } := by
  have hmap : s.sliceInfoMap.mapM (u.action.apply u.type) =
      .ok (SliceUpdate.write s.sliceInfoMap u) := mapM_eq_map fun slice _ => apply_action u slice
  have hvalue : u.action.value ≠ [] := List.cons_ne_nil _ _
  rw [updateSliceInfo, hmap, bind_eq_ok]
  constructor
  · rintro ⟨slices, hslices, h⟩
    cases hslices
    simp only [if_neg hvalue] at h
    split_ifs at h with hlt
    cases pure_eq_ok.mp h
    exact ⟨not_lt.mp hlt, rfl⟩
  · rintro ⟨hfits, rfl⟩
    refine ⟨_, rfl, ?_⟩
    simp only [if_neg hvalue]
    rw [if_neg (not_lt.mpr hfits)]
    rfl

theorem updateSlices_ok :
    s.updateSlices us = .ok s' ↔
      (∀ first, first <+: us → first ≠ [] → s.Fits (first.foldl SliceUpdate.write s.sliceInfoMap)) ∧
        s' = { s with sliceInfoMap := us.foldl SliceUpdate.write s.sliceInfoMap } := by
  induction us generalizing s with
  | nil =>
    constructor
    · intro h
      cases h
      refine ⟨fun first hfirst hne => ?_, rfl⟩
      exact absurd (List.prefix_nil.mp hfirst) hne
    · rintro ⟨-, rfl⟩
      rfl
  | cons u us ih =>
    rw [updateSlices, List.foldlM_cons, bind_eq_ok]
    constructor
    · rintro ⟨s₁, h₁, hrest⟩
      obtain ⟨hfits, rfl⟩ := updateSliceInfo_ok.mp h₁
      obtain ⟨hall, rfl⟩ := ih.mp hrest
      refine ⟨fun first hfirst hne => ?_, rfl⟩
      obtain ⟨rest, rfl, hrest⟩ := (List.prefix_cons_iff.mp hfirst).resolve_left hne
      by_cases hnil : rest = []
      · rw [hnil]
        exact hfits
      · exact hall rest hrest hnil
    · rintro ⟨hall, rfl⟩
      refine ⟨_, updateSliceInfo_ok.mpr ⟨?_, rfl⟩, ih.mpr ⟨fun first hfirst _ => ?_, rfl⟩⟩
      · exact hall [u] (List.prefix_cons_iff.mpr (.inr ⟨[], rfl, List.nil_prefix⟩))
          (List.cons_ne_nil u [])
      · exact hall (u :: first) (List.prefix_cons_iff.mpr (.inr ⟨first, rfl, hfirst⟩))
          (List.cons_ne_nil u first)

/-- Each order passes all checks or fails at the first that it does not pass, orders that pass end
alike, and all orders pass when every part of the updates does. -/
theorem updateSlices_orders (s : NsPfScheduler R) {us : List SliceUpdate}
    (hn : (us.map SliceUpdate.target).Nodup) :
    (∀ us', us'.Perm us → ∀ s', s.updateSlices us' = .ok s' ↔
      (∀ first, first <+: us' → first ≠ [] →
        s.Fits (first.foldl SliceUpdate.write s.sliceInfoMap)) ∧
        s' = { s with sliceInfoMap := us.foldl SliceUpdate.write s.sliceInfoMap }) ∧
      ((∀ us', us'.Perm us → ∃ s', s.updateSlices us' = .ok s') ↔
        ∀ part, part.Sublist us → part ≠ [] →
          s.Fits (part.foldl SliceUpdate.write s.sliceInfoMap)) := by
  constructor
  · intro us' hperm s'
    rw [updateSlices_ok, SliceUpdate.foldl_write_perm hn hperm.symm]
  · constructor
    · intro hall part hpart hne
      obtain ⟨rest, hrest⟩ := hpart.exists_perm_append
      obtain ⟨s', hs'⟩ := hall (part ++ rest) hrest.symm
      exact (updateSlices_ok.mp hs').1 part (List.prefix_append part rest) hne
    · intro hall us' hperm
      refine ⟨_, updateSlices_ok.mpr ⟨fun first hfirst hne => ?_, rfl⟩⟩
      obtain ⟨part, hsame, hpart⟩ := hfirst.sublist.subperm.trans hperm.subperm
      have hnodup : (part.map SliceUpdate.target).Nodup := hn.sublist (hpart.map _)
      rw [← SliceUpdate.foldl_write_perm hnodup hsame]
      refine hall part hpart fun hnil => hne ?_
      rw [hnil] at hsame
      exact hsame.nil_eq.symm

def fullCell : NsPfScheduler ℚ :=
  { start true 25 with
    sliceInfoMap :=
      [(0, SliceInfo.recount ⟨12, 0, 0, 0, 0⟩), (1, SliceInfo.recount ⟨0, 0, 4, 0, 0⟩)] }

theorem updateSlices_orders_fullCell :
    (∀ us' : List SliceUpdate, us'.Perm [⟨0, .d, 8⟩, ⟨1, .s, 2⟩] →
      ∃ s', fullCell.updateSlices us' = .ok s') ∧
      ¬ ∀ us' : List SliceUpdate, us'.Perm [⟨0, .d, 0⟩, ⟨1, .d, 12⟩] →
        ∃ s', fullCell.updateSlices us' = .ok s' := by
  constructor
  · apply (updateSlices_orders fullCell (by decide)).2.mpr
    intro part hpart _
    have hall : ∀ part ∈ [(⟨0, .d, 8⟩ : SliceUpdate), ⟨1, .s, 2⟩].sublists,
        totalScheduledRbg (part.foldl SliceUpdate.write fullCell.sliceInfoMap) ≤ 12 := by
      decide
    exact hall part (List.mem_sublists.mpr hpart)
  · intro hall
    have hpart := (updateSlices_orders fullCell (by decide)).2.mp hall [⟨1, .d, 12⟩]
      (List.sublist_cons_self _ _) (List.cons_ne_nil _ _)
    exact absurd hpart (by unfold Fits; decide)

/-- The RBGs go from the first slice to the second, and the second takes them too early. -/
theorem updateSlices_too_early :
    (fullCell.updateSlices [⟨0, .d, 0⟩, ⟨1, .d, 12⟩]).isOk = true ∧
      fullCell.updateSlices [⟨1, .d, 12⟩, ⟨0, .d, 0⟩] =
        .error (.fatalError "the total schedule RBGs (" 0) :=
  ⟨rfl, rfl⟩

end NsPfScheduler
end NetGymSim.Gma

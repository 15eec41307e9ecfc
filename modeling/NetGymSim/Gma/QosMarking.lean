import NetGymSim.Gma.GmaDataProcessor
import NetGymSim.Lib.ExceptFold
import Mathlib.Algebra.Order.Field.Rat
import Mathlib.Data.Prod.Lex

/-!
# The marking of QoS clients

The measurements of a link are divided into groups by slice and cell, and in each group one client
is promoted or some are demoted. Rates and markings are rationals. The index of the second loop is
a `uint32_t` that is never negative: below zero it wraps, and `at` ends the program.
-/

namespace NetGymSim.Gma
open NetGymSim.Lib

inductive MarkingFault
  | sizeMismatch | noCell | outOfRange
  deriving DecidableEq, Repr

def qosRateHighTarget : ℚ := 9 / 10
def qosRateLowTarget : ℚ := 7 / 10
def qosRateMinRatio : ℚ := qosRateLowTarget

structure QosRow where
  clientId : ℕ
  rate : ℚ
  qosMarking : ℚ
  deriving DecidableEq

structure QosMeasure where
  rate : List ℚ := []
  qosMarking : List ℚ := []
  clientId : List ℕ := []
  deriving DecidableEq

def qosRate (marking rate : List ℚ) : ℚ :=
  ((marking.zip rate).map fun p => if p.1 > 0 then p.2 else 0).sum

def nqosRate (marking rate : List ℚ) : ℚ :=
  ((marking.zip rate).map fun p => if p.1 > 0 then 0 else p.2).sum

def promoteFirst : List ℚ → List ℚ
  | [] => []
  | marking :: rest => if marking < 1 then 1 :: rest else marking :: promoteFirst rest

def Demotes (nqosRateSum qosRateMin qosRateSum : ℚ) : Prop :=
  qosRateSum > qosRateHighTarget * (qosRateSum + nqosRateSum) ∧ qosRateSum > qosRateMin

instance (nqosRateSum qosRateMin qosRateSum : ℚ) :
    Decidable (Demotes nqosRateSum qosRateMin qosRateSum) :=
  inferInstanceAs (Decidable (_ ∧ _))

def demote (rate : List ℚ) (nqosRateSum qosRateMin : ℚ) :
    ℕ → ℚ → List ℚ → Except MarkingFault (ℚ × List ℚ)
  | 0, qosRateSum, marking =>
      if Demotes nqosRateSum qosRateMin qosRateSum then .error .outOfRange
      else .ok (qosRateSum, marking)
  | reverseInd + 1, qosRateSum, marking =>
      if Demotes nqosRateSum qosRateMin qosRateSum then
        match marking[reverseInd]?, rate[reverseInd]? with
        | some m, some r =>
            if m > 0 then
              demote rate nqosRateSum qosRateMin reverseInd (qosRateSum - r)
                (marking.set reverseInd 0)
            else demote rate nqosRateSum qosRateMin reverseInd qosRateSum marking
        | _, _ => .error .outOfRange
      else .ok (qosRateSum, marking)

namespace QosMeasure
variable (m : QosMeasure)

def qosRateSum : ℚ := qosRate m.qosMarking m.rate

def nqosRateSum : ℚ := nqosRate m.qosMarking m.rate

def qosRateMin : ℚ := m.qosRateSum * qosRateMinRatio

def promoted : List ℚ :=
  if m.qosRateSum < qosRateLowTarget * (m.qosRateSum + m.nqosRateSum) then
    promoteFirst m.qosMarking
  else m.qosMarking

def newMarking : Except MarkingFault (List ℚ) :=
  if m.rate.length ≠ m.qosMarking.length then .error .sizeMismatch
  else (demote m.rate m.nqosRateSum m.qosRateMin m.rate.length m.qosRateSum m.promoted).map Prod.snd

def push (row : QosRow) : QosMeasure :=
  ⟨m.rate ++ [row.rate], m.qosMarking ++ [row.qosMarking], m.clientId ++ [row.clientId]⟩

def rows : List QosRow :=
  List.zipWith (fun clientId p => ⟨clientId, p.1, p.2⟩) m.clientId (m.rate.zip m.qosMarking)

end QosMeasure

abbrev GroupKey : Type := ℤ ×ₗ ℕ

abbrev QosMap : Type := ℕ × ℤ → Option ℚ

structure QosMaps where
  idToDlQosMap : QosMap := fun _ => none
  idToUlQosMap : QosMap := fun _ => none

namespace QosMaps

def ofDirection (s : QosMaps) (dl : Bool) : QosMap :=
  if dl then s.idToDlQosMap else s.idToUlQosMap

def store (s : QosMaps) (dl : Bool) (cid : ℤ) (clientId : ℕ) (marking : ℚ) : QosMaps :=
  if dl then { s with
    idToDlQosMap := Function.update s.idToDlQosMap (clientId, cid) (some marking) }
  else { s with idToUlQosMap := Function.update s.idToUlQosMap (clientId, cid) (some marking) }

def calcQosMarkingActionPerSlice (s : QosMaps) (m : QosMeasure) (cid : ℤ) (dl : Bool) :
    Except MarkingFault QosMaps := do
  let marking ← m.newMarking
  if m.clientId.length < m.rate.length then .error .outOfRange
  else return (m.clientId.zip marking).foldl (fun s p => s.store dl cid p.1 p.2) s

end QosMaps

namespace GmaDataProcessor
variable (p : GmaDataProcessor)

/-- Without slicing every client has the slice 0 here. -/
def groupOf (cid : ℤ) (clientId : ℕ) : Except MarkingFault GroupKey :=
  match p.clientIdToCellIdMap (clientId, cid) with
  | none => .error .noCell
  | some cellId =>
      .ok (toLex ((OrderedMap.find p.clientIdToSliceIdMap clientId).getD 0, cellId))

def groups (cid : ℤ) (rows : List QosRow) : Except MarkingFault (List (GroupKey × QosMeasure)) :=
  rows.foldlM (fun groups row => do
    let key ← p.groupOf cid row.clientId
    return OrderedMap.upsert (· < ·) key (fun old => (old.getD {}).push row) groups) []

def calcQosMarkingAction (s : QosMaps) (m : QosMeasure) (cid : ℤ) (dl : Bool) :
    Except MarkingFault QosMaps :=
  if m.rate.length ≠ m.qosMarking.length ∨ m.rate.length ≠ m.clientId.length then
    .error .sizeMismatch
  else do
    let groups ← p.groups cid m.rows
    groups.foldlM (fun s group => s.calcQosMarkingActionPerSlice group.2 cid dl) s

end GmaDataProcessor
end NetGymSim.Gma

/-!
## The groups of a batch

A row goes to the group of its client, and the client's slice and cell alone decide which one that
is. A group is then the part of the batch that has its key, in the order of the batch, and what
its clients get is computed from that part.
-/

namespace NetGymSim.Gma
open NetGymSim.Lib

namespace QosMeasure

def ofRows (rows : List QosRow) : QosMeasure :=
  ⟨rows.map QosRow.rate, rows.map QosRow.qosMarking, rows.map QosRow.clientId⟩

theorem push_ofRows (rows : List QosRow) (row : QosRow) :
    (ofRows rows).push row = ofRows (rows ++ [row]) := by
  simp [ofRows, push]

variable {m : QosMeasure}

theorem rows_length (hmark : m.rate.length = m.qosMarking.length)
    (hid : m.rate.length = m.clientId.length) : m.rows.length = m.rate.length := by
  rw [rows, List.length_zipWith, List.length_zip, ← hmark, ← hid, Nat.min_self, Nat.min_self]

theorem ofRows_rows (hmark : m.rate.length = m.qosMarking.length)
    (hid : m.rate.length = m.clientId.length) : ofRows m.rows = m := by
  have hlen := rows_length hmark hid
  have hrate : m.rows.map QosRow.rate = m.rate := by
    apply List.ext_getElem
    · rw [List.length_map, hlen]
    · intro i hi hi'
      simp [rows]
  have hmarking : m.rows.map QosRow.qosMarking = m.qosMarking := by
    apply List.ext_getElem
    · rw [List.length_map, hlen, hmark]
    · intro i hi hi'
      simp [rows]
  have hclient : m.rows.map QosRow.clientId = m.clientId := by
    apply List.ext_getElem
    · rw [List.length_map, hlen, hid]
    · intro i hi hi'
      simp [rows]
  rw [ofRows, hrate, hmarking, hclient]

end QosMeasure

namespace GmaDataProcessor
variable {p : GmaDataProcessor} {cid : ℤ} {key : GroupKey} {rows done : List QosRow}
  {groups : List (GroupKey × QosMeasure)}

def groupRows (p : GmaDataProcessor) (cid : ℤ) (key : GroupKey) (rows : List QosRow) :
    List QosRow :=
  rows.filter fun row => p.groupOf cid row.clientId = .ok key

structure Grouped (p : GmaDataProcessor) (cid : ℤ) (groups : List (GroupKey × QosMeasure))
    (done : List QosRow) : Prop where
  sorted : OrderedMap.Sorted groups
  find : ∀ key, OrderedMap.find groups key =
    if p.groupRows cid key done = [] then none
    else some (QosMeasure.ofRows (p.groupRows cid key done))
  clients : (groups.flatMap fun group => group.2.clientId).Perm (done.map QosRow.clientId)

theorem grouped_nil : Grouped p cid [] [] where
  sorted := List.Pairwise.nil
  find _ := rfl
  clients := .refl _

theorem Grouped.push (h : Grouped p cid groups done) {row : QosRow}
    (hkey : p.groupOf cid row.clientId = .ok key) :
    Grouped p cid
      (OrderedMap.upsert (· < ·) key (fun old => (old.getD {}).push row) groups)
      (done ++ [row]) where
  sorted := h.sorted.upsert _ _
  find key' := by
    have hrows : p.groupRows cid key' (done ++ [row]) =
        p.groupRows cid key' done ++ if key' = key then [row] else [] := by
      rw [groupRows, List.filter_append, List.filter_singleton, hkey, groupRows]
      simp [eq_comm]
    have hold : (OrderedMap.find groups key).getD {} =
        QosMeasure.ofRows (p.groupRows cid key done) := by
      rw [h.find]
      split_ifs with hnil
      · rw [hnil]
        rfl
      · rfl
    rw [h.sorted.find_upsert, hold, QosMeasure.push_ofRows, hrows]
    by_cases hk : key' = key
    · subst hk
      simp
    · simp [hk, h.find]
  clients := by
    rw [List.map_append]
    refine (OrderedMap.flatMap_upsert (a := row.clientId) ?_ ?_ key groups).trans ?_
    · rfl
    · intro v
      exact List.perm_append_singleton _ _
    · exact (h.clients.cons _).trans (List.perm_append_singleton _ _).symm

theorem groups_grouped (h : p.groups cid rows = .ok groups) : Grouped p cid groups rows := by
  have hinv := foldlM_inv
    (P := fun groups rest => ∃ done, done ++ rest = rows ∧ Grouped p cid groups done)
    (fun groups row rest groups' hP hstep => by
      obtain ⟨done, rfl, hdone⟩ := hP
      rw [bind_eq_ok] at hstep
      obtain ⟨key, hkey, hstep⟩ := hstep
      cases pure_eq_ok.mp hstep
      exact ⟨done ++ [row], by rw [List.append_assoc, List.singleton_append], hdone.push hkey⟩)
    ⟨[], rfl, grouped_nil⟩ h
  obtain ⟨done, hdone, hgrouped⟩ := hinv
  rw [List.append_nil] at hdone
  exact hdone ▸ hgrouped

theorem groups_total (h : ∀ row ∈ rows, p.clientIdToCellIdMap (row.clientId, cid) ≠ none) :
    ∃ groups, p.groups cid rows = .ok groups := by
  apply foldlM_total
    (P := fun _ rest => ∀ row ∈ rest, p.clientIdToCellIdMap (row.clientId, cid) ≠ none)
  · intro groups row rest hcell
    obtain ⟨cellId, hcellId⟩ := Option.ne_none_iff_exists'.mp (hcell row List.mem_cons_self)
    have hkey : p.groupOf cid row.clientId =
        .ok (toLex ((OrderedMap.find p.clientIdToSliceIdMap row.clientId).getD 0, cellId)) := by
      rw [groupOf, hcellId]
    rw [hkey]
    exact ⟨_, rfl, fun other hother => hcell other (List.mem_cons_of_mem _ hother)⟩
  · exact h

theorem Grouped.eq_ofRows (h : Grouped p cid groups done) {g : QosMeasure}
    (hg : (key, g) ∈ groups) : g = QosMeasure.ofRows (p.groupRows cid key done) := by
  have hfind := h.sorted.find hg
  rw [h.find] at hfind
  split_ifs at hfind
  exact (Option.some.inj hfind).symm

theorem Grouped.mem_of_row (h : Grouped p cid groups done) {row : QosRow}
    (hrow : row ∈ p.groupRows cid key done) :
    (key, QosMeasure.ofRows (p.groupRows cid key done)) ∈ groups := by
  apply OrderedMap.mem_of_find
  rw [h.find, if_neg (List.ne_nil_of_mem hrow)]

theorem Grouped.key_of_mem (h : Grouped p cid groups done) {g : QosMeasure}
    (hg : (key, g) ∈ groups) {clientId : ℕ} (hid : clientId ∈ g.clientId) :
    p.groupOf cid clientId = .ok key := by
  rw [h.eq_ofRows hg] at hid
  obtain ⟨row, hrow, rfl⟩ := List.mem_map.mp hid
  exact of_decide_eq_true (List.mem_filter.mp hrow).2

theorem Grouped.unique (h : Grouped p cid groups done) {group group' : GroupKey × QosMeasure}
    (hg : group ∈ groups) (hg' : group' ∈ groups) {clientId : ℕ}
    (hid : clientId ∈ group.2.clientId) (hid' : clientId ∈ group'.2.clientId) :
    group' = group := by
  obtain ⟨key, g⟩ := group
  obtain ⟨key', g'⟩ := group'
  have hkey := (h.key_of_mem hg hid).symm.trans (h.key_of_mem hg' hid')
  cases hkey
  rw [h.eq_ofRows hg, h.eq_ofRows hg']

theorem Grouped.existsUnique (h : Grouped p cid groups done) {clientId : ℕ}
    (hid : clientId ∈ done.map QosRow.clientId) :
    ∃! group, group ∈ groups ∧ clientId ∈ group.2.clientId := by
  obtain ⟨group, hg, hmem⟩ := List.mem_flatMap.mp (h.clients.mem_iff.mpr hid)
  exact ⟨group, ⟨hg, hmem⟩, fun group' hgroup' => h.unique hg hgroup'.1 hmem hgroup'.2⟩

end GmaDataProcessor

section Actions
variable {rate marking : List ℚ} {nqosRateSum qosRateMin qosRateSum : ℚ}

theorem promoteFirst_length : (promoteFirst marking).length = marking.length := by
  induction marking with
  | nil => rfl
  | cons m rest ih =>
    rw [promoteFirst]
    split_ifs
    · rfl
    · rw [List.length_cons, List.length_cons, ih]

theorem demote_length {n : ℕ} {r : ℚ × List ℚ}
    (h : demote rate nqosRateSum qosRateMin n qosRateSum marking = .ok r) :
    r.2.length = marking.length := by
  induction n generalizing qosRateSum marking with
  | zero =>
    rw [demote] at h
    split_ifs at h
    cases h
    rfl
  | succ n ih =>
    rw [demote] at h
    split_ifs at h
    · split at h
      · split_ifs at h
        · rw [ih h, List.length_set]
        · exact ih h
      · cases h
    · cases h
      rfl

namespace QosMeasure
variable {m : QosMeasure}

theorem newMarking_length (h : m.newMarking = .ok marking) :
    marking.length = m.qosMarking.length := by
  rw [newMarking] at h
  split_ifs at h
  obtain ⟨r, hr, rfl⟩ := map_eq_ok.mp h
  rw [demote_length hr, promoted]
  split_ifs
  · exact promoteFirst_length
  · rfl

def actions (m : QosMeasure) : List (ℕ × ℚ) :=
  match m.newMarking with
  | .ok marking => m.clientId.zip marking
  | .error _ => []

end QosMeasure

namespace QosMaps
variable {s s' : QosMaps} {m : QosMeasure} {cid : ℤ} {dl : Bool}

def storeAll (s : QosMaps) (dl : Bool) (cid : ℤ) (actions : List (ℕ × ℚ)) : QosMaps :=
  actions.foldl (fun s p => s.store dl cid p.1 p.2) s

theorem store_ofDirection (clientId clientId' : ℕ) (marking : ℚ) :
    (s.store dl cid clientId marking).ofDirection dl (clientId', cid) =
      if clientId = clientId' then some marking else s.ofDirection dl (clientId', cid) := by
  have hupdate : ∀ map : QosMap,
      Function.update map (clientId, cid) (some marking) (clientId', cid) =
        if clientId = clientId' then some marking else map (clientId', cid) := by
    intro map
    rw [Function.update_apply]
    apply if_congr _ rfl rfl
    rw [Prod.mk.injEq, and_iff_left rfl]
    exact eq_comm
  cases dl with
  | true => exact hupdate s.idToDlQosMap
  | false => exact hupdate s.idToUlQosMap

theorem storeAll_ofDirection (actions : List (ℕ × ℚ)) (clientId : ℕ) :
    (s.storeAll dl cid actions).ofDirection dl (clientId, cid) =
      (OrderedMap.find actions.reverse clientId).or (s.ofDirection dl (clientId, cid)) := by
  induction actions using List.reverseRecOn with
  | nil => rfl
  | append_singleton rest action ih =>
    rw [storeAll, List.foldl_append, List.foldl_cons, List.foldl_nil, store_ofDirection,
      List.reverse_append, List.reverse_singleton, List.singleton_append, OrderedMap.find_cons]
    split_ifs
    · rfl
    · exact ih

theorem calcQosMarkingActionPerSlice_eq
    (h : s.calcQosMarkingActionPerSlice m cid dl = .ok s') :
    s' = s.storeAll dl cid m.actions := by
  rw [calcQosMarkingActionPerSlice, bind_eq_ok] at h
  obtain ⟨marking, hmarking, h⟩ := h
  split_ifs at h
  cases pure_eq_ok.mp h
  rw [storeAll, QosMeasure.actions, hmarking]

theorem actions_clientId (hlen : m.clientId.length = m.qosMarking.length)
    (h : s.calcQosMarkingActionPerSlice m cid dl = .ok s') :
    m.actions.map Prod.fst = m.clientId := by
  rw [calcQosMarkingActionPerSlice, bind_eq_ok] at h
  obtain ⟨marking, hmarking, -⟩ := h
  have hle : m.clientId.length ≤ marking.length :=
    (hlen.trans (QosMeasure.newMarking_length hmarking).symm).le
  rw [QosMeasure.actions, hmarking, List.map_fst_zip hle]

theorem foldlM_actions {groups : List (GroupKey × QosMeasure)}
    (h : groups.foldlM (fun s group => s.calcQosMarkingActionPerSlice group.2 cid dl) s = .ok s') :
    s' = s.storeAll dl cid (groups.flatMap fun group => group.2.actions) := by
  induction groups generalizing s with
  | nil =>
    cases h
    rfl
  | cons group rest ih =>
    rw [List.foldlM_cons, bind_eq_ok] at h
    obtain ⟨s₁, h₁, hrest⟩ := h
    rw [ih hrest, calcQosMarkingActionPerSlice_eq h₁, List.flatMap_cons, storeAll, storeAll,
      storeAll, List.foldl_append]

end QosMaps
end Actions

namespace GmaDataProcessor
variable {p p₁ p₂ : GmaDataProcessor} {s s' s₁ s₂ r₁ r₂ : QosMaps} {m m₁ m₂ : QosMeasure}
  {cid : ℤ} {dl : Bool} {groups : List (GroupKey × QosMeasure)} {done : List QosRow}

theorem Grouped.actions_clientId (h : Grouped p cid groups done)
    (hrun : groups.foldlM (fun s group => s.calcQosMarkingActionPerSlice group.2 cid dl) s =
      .ok s') {group : GroupKey × QosMeasure} (hg : group ∈ groups) :
    group.2.actions.map Prod.fst = group.2.clientId := by
  obtain ⟨s₁, rest, s₂, -, hstep⟩ := foldlM_turn (P := fun _ _ => True)
    (fun _ _ _ _ _ _ => trivial) trivial hrun hg
  apply QosMaps.actions_clientId ?_ hstep
  rw [h.eq_ofRows hg, QosMeasure.ofRows, List.length_map, List.length_map]

theorem find_actions {g : QosMeasure} {clientId : ℕ}
    (hkeys : ∀ group ∈ groups, group.2.actions.map Prod.fst = group.2.clientId)
    (huniq : ∀ group ∈ groups, clientId ∈ group.2.clientId → group.2 = g)
    (hg : ∃ group ∈ groups, clientId ∈ group.2.clientId) :
    OrderedMap.find (groups.flatMap fun group => group.2.actions).reverse clientId =
      OrderedMap.find g.actions.reverse clientId := by
  induction groups with
  | nil =>
    obtain ⟨group, hgroup, -⟩ := hg
    cases hgroup
  | cons group rest ih =>
    rw [List.flatMap_cons, List.reverse_append, OrderedMap.find_append]
    have hrestKeys := fun other hother => hkeys other (List.mem_cons_of_mem _ hother)
    by_cases hlater : ∃ other ∈ rest, clientId ∈ other.2.clientId
    · obtain ⟨other, hother, hmem⟩ := hlater
      have hsame := huniq other (List.mem_cons_of_mem _ hother) hmem
      have hin : clientId ∈ g.actions.reverse.map Prod.fst := by
        rw [List.map_reverse, List.mem_reverse, ← hsame, hrestKeys other hother]
        exact hmem
      obtain ⟨marking, hfind⟩ := OrderedMap.find_of_mem_keys hin
      rw [ih hrestKeys (fun other hother => huniq other (List.mem_cons_of_mem _ hother))
        ⟨other, hother, hmem⟩, hfind, Option.some_or]
    · have hnone : OrderedMap.find (rest.flatMap fun group => group.2.actions).reverse clientId =
          none := by
        apply OrderedMap.find_eq_none
        rintro action haction rfl
        obtain ⟨other, hother, hmem⟩ := List.mem_flatMap.mp (List.mem_reverse.mp haction)
        apply hlater
        exact ⟨other, hother, hrestKeys other hother ▸ List.mem_map_of_mem hmem⟩
      obtain ⟨other, hother, hmem⟩ := hg
      have hfirst : clientId ∈ group.2.clientId := by
        cases List.mem_cons.mp hother with
        | inl heq => exact heq ▸ hmem
        | inr hin => exact absurd ⟨other, hin, hmem⟩ hlater
      rw [hnone, Option.none_or, huniq group List.mem_cons_self hfirst]

def ActsOnce (p : GmaDataProcessor) (s : QosMaps) (m : QosMeasure) (cid : ℤ) (dl : Bool)
    (r : QosMaps) : Prop :=
  ∃ groups, p.groups cid m.rows = .ok groups ∧
    (∀ clientId ∈ m.clientId, ∃! group, group ∈ groups ∧ clientId ∈ group.2.clientId) ∧
    ((groups.flatMap fun group => group.2.actions).map Prod.fst).Perm m.clientId ∧
    r = s.storeAll dl cid (groups.flatMap fun group => group.2.actions)

theorem calcQosMarkingAction_runs (h : p.calcQosMarkingAction s m cid dl = .ok s') :
    m.rows.map QosRow.clientId = m.clientId ∧
      ∃ groups, p.groups cid m.rows = .ok groups ∧
        groups.foldlM (fun s group => s.calcQosMarkingActionPerSlice group.2 cid dl) s =
          .ok s' := by
  rw [calcQosMarkingAction] at h
  split_ifs at h with hsize
  obtain ⟨hmark, hid⟩ := not_or.mp hsize
  rw [bind_eq_ok] at h
  exact ⟨congrArg QosMeasure.clientId
    (QosMeasure.ofRows_rows (not_not.mp hmark) (not_not.mp hid)), h⟩

theorem calcQosMarkingAction_actsOnce (h : p.calcQosMarkingAction s m cid dl = .ok s') :
    p.ActsOnce s m cid dl s' := by
  obtain ⟨hclients, groups, hgroups, hrun⟩ := calcQosMarkingAction_runs h
  have hgrouped := groups_grouped hgroups
  refine ⟨groups, hgroups, ?_, ?_, QosMaps.foldlM_actions hrun⟩
  · intro clientId hid
    exact hgrouped.existsUnique (hclients ▸ hid)
  · have hkeys : groups.map (fun group => group.2.actions.map Prod.fst) =
        groups.map fun group => group.2.clientId :=
      List.map_congr_left fun group hg => hgrouped.actions_clientId hrun hg
    rw [List.map_flatMap, List.flatMap_def, hkeys, ← List.flatMap_def]
    exact hclients ▸ hgrouped.clients

theorem calcQosMarkingAction_ofRows (h : p.calcQosMarkingAction s m cid dl = .ok s')
    {key : GroupKey} {row : QosRow} (hrow : row ∈ p.groupRows cid key m.rows) :
    ∃ marking, s'.ofDirection dl (row.clientId, cid) = some marking ∧
      OrderedMap.find (QosMeasure.ofRows (p.groupRows cid key m.rows)).actions.reverse
        row.clientId = some marking := by
  obtain ⟨-, groups, hgroups, hrun⟩ := calcQosMarkingAction_runs h
  have hgrouped := groups_grouped hgroups
  have hg := hgrouped.mem_of_row hrow
  have hid : row.clientId ∈ (QosMeasure.ofRows (p.groupRows cid key m.rows)).clientId :=
    List.mem_map_of_mem hrow
  have hkeys := fun group (hgroup : group ∈ groups) => hgrouped.actions_clientId hrun hgroup
  have hin : row.clientId ∈
      (QosMeasure.ofRows (p.groupRows cid key m.rows)).actions.reverse.map Prod.fst := by
    rw [List.map_reverse, List.mem_reverse, hkeys _ hg]
    exact hid
  obtain ⟨marking, hfind⟩ := OrderedMap.find_of_mem_keys hin
  refine ⟨marking, ?_, hfind⟩
  rw [QosMaps.foldlM_actions hrun, QosMaps.storeAll_ofDirection,
    find_actions hkeys (fun group hgroup hmem =>
      congrArg Prod.snd (hgrouped.unique hg hgroup hid hmem)) ⟨_, hg, hid⟩, hfind,
    Option.some_or]

/-- Two runs give the clients of a group the same markings when the batches agree on its rows,
whatever else they hold. -/
theorem calcQosMarkingAction_isolated
    (h₁ : p₁.calcQosMarkingAction s₁ m₁ cid dl = .ok r₁)
    (h₂ : p₂.calcQosMarkingAction s₂ m₂ cid dl = .ok r₂) :
    p₁.ActsOnce s₁ m₁ cid dl r₁ ∧ p₂.ActsOnce s₂ m₂ cid dl r₂ ∧
      ∀ key, p₁.groupRows cid key m₁.rows = p₂.groupRows cid key m₂.rows →
        ∀ row ∈ p₁.groupRows cid key m₁.rows, ∃ marking,
          r₁.ofDirection dl (row.clientId, cid) = some marking ∧
            r₂.ofDirection dl (row.clientId, cid) = some marking := by
  refine ⟨calcQosMarkingAction_actsOnce h₁, calcQosMarkingAction_actsOnce h₂, ?_⟩
  intro key hrows row hrow
  obtain ⟨marking, hleft, hfind⟩ := calcQosMarkingAction_ofRows h₁ hrow
  obtain ⟨marking', hright, hfind'⟩ := calcQosMarkingAction_ofRows h₂ (hrows ▸ hrow)
  rw [hrows, hfind'] at hfind
  exact ⟨marking, hleft, hright.trans hfind⟩

def parityCells : GmaDataProcessor where
  clientIdToCellIdMap := fun key => some (key.1 % 2)

/-- The batches agree on the clients 0 and 2. -/
theorem calcQosMarkingAction_isolated_parity :
    ∃ r₁ r₂,
      parityCells.calcQosMarkingAction {} ⟨[5, 3, 2], [1, 0, 0], [0, 2, 1]⟩ 0 true = .ok r₁ ∧
      parityCells.calcQosMarkingAction {} ⟨[9, 5, 3, 4], [1, 1, 0, 1], [1, 0, 2, 3]⟩ 0 true =
        .ok r₂ ∧
      ∃ marking, r₁.ofDirection true (2, 0) = some marking ∧
        r₂.ofDirection true (2, 0) = some marking := by
  obtain ⟨r₁, h₁⟩ : ∃ r, parityCells.calcQosMarkingAction {} ⟨[5, 3, 2], [1, 0, 0], [0, 2, 1]⟩
      0 true = .ok r := exists_ok (by decide +kernel)
  obtain ⟨r₂, h₂⟩ : ∃ r, parityCells.calcQosMarkingAction {}
      ⟨[9, 5, 3, 4], [1, 1, 0, 1], [1, 0, 2, 3]⟩ 0 true = .ok r := exists_ok (by decide +kernel)
  obtain ⟨-, -, hsame⟩ := calcQosMarkingAction_isolated h₁ h₂
  refine ⟨r₁, r₂, h₁, h₂, hsame (toLex (0, 0)) ?_ ⟨2, 3, 0⟩ ?_⟩
  · decide +kernel
  · decide +kernel

end GmaDataProcessor
end NetGymSim.Gma

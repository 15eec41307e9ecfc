import NetGymSim.Olsr.Repositories
import Mathlib.Data.Finset.Basic
import Mathlib.Data.List.Sort

/-!
# The MPR computation

The working set `N2` holds the records of two-hop addresses that no chosen neighbour reaches
yet. All three phases choose neighbours of records that are still there and erase records
of addresses that a chosen neighbour reaches, so that an address is always either covered
or has all its records left. The last phase erases some record in every turn. Reachability and
degree, `int` in the source, are counted without a bound.
-/

namespace NetGymSim.Olsr

/-- The neighbor set has one tuple for each main address. -/
structure NeighborSet where
  list : List NeighborTuple
  oneEach : (list.map NeighborTuple.neighborMainAddr).Nodup

structure MprNode where
  mainAddress : Ipv4Address
  neighbors : NeighborSet
  twoHopNeighbors : List TwoHopNeighborTuple

abbrev MprSet := Finset Ipv4Address

def coverTwoHopNeighbors (neighborMainAddr : Ipv4Address) (n2 : List TwoHopNeighborTuple) :
    List TwoHopNeighborTuple :=
  let toRemove := (n2.filter fun t => t.neighborMainAddr = neighborMainAddr).map
    TwoHopNeighborTuple.twoHopNeighborAddr
  n2.filter fun t => t.twoHopNeighborAddr ∉ toRemove

namespace MprNode

def symNeighbors (s : MprNode) : List NeighborTuple :=
  s.neighbors.list.filter fun n => n.status = .sym

/-- A record goes into `N2`: the neighbor is willing, and the address is neither the node's
own nor that of a symmetric neighbor. -/
def admits (s : MprNode) (t : TwoHopNeighborTuple) : Bool :=
  t.twoHopNeighborAddr ≠ s.mainAddress ∧
    ((findNeighborTuple s.symNeighbors t.neighborMainAddr).any fun n =>
      n.willingness ≠ Willingness.never) ∧
    ∀ n ∈ s.symNeighbors, n.neighborMainAddr ≠ t.twoHopNeighborAddr

def n2 (s : MprNode) : List TwoHopNeighborTuple := s.twoHopNeighbors.filter s.admits

structure Work where
  mprSet : MprSet
  n2 : List TwoHopNeighborTuple

def Work.choose (w : Work) (neighborMainAddr : Ipv4Address) : Work :=
  ⟨insert neighborMainAddr w.mprSet, coverTwoHopNeighbors neighborMainAddr w.n2⟩

def chooseAlways (n : List NeighborTuple) (w : Work) : Work :=
  n.foldl (fun w n =>
    if n.willingness = Willingness.always then w.choose n.neighborMainAddr else w) w

def onlyOne (n2 : List TwoHopNeighborTuple) (t : TwoHopNeighborTuple) : Bool :=
  ¬ ∃ o ∈ n2, o.twoHopNeighborAddr = t.twoHopNeighborAddr ∧
    o.neighborMainAddr ≠ t.neighborMainAddr

/-- Step 3: the only neighbors to reach some address. What they reach is removed at the end. -/
def chooseSole (w : Work) : Work :=
  let sole := w.n2.filter (onlyOne w.n2)
  let covered := sole.flatMap fun t =>
    (w.n2.filter fun o => o.neighborMainAddr = t.neighborMainAddr).map
      TwoHopNeighborTuple.twoHopNeighborAddr
  ⟨w.mprSet ∪ (sole.map TwoHopNeighborTuple.neighborMainAddr).toFinset,
    w.n2.filter fun t => t.twoHopNeighborAddr ∉ covered⟩

def degree (s : MprNode) (n : NeighborTuple) : ℕ :=
  s.twoHopNeighbors.countP fun t => t.neighborMainAddr = n.neighborMainAddr ∧
    (findNeighborTuple s.neighbors.list t.neighborMainAddr).isNone

def reach (n2 : List TwoHopNeighborTuple) (n : NeighborTuple) : ℕ :=
  n2.countP fun t => n.neighborMainAddr = t.neighborMainAddr

def better (s : MprNode) (max : Option (NeighborTuple × ℕ)) (p : NeighborTuple × ℕ) :
    Option (NeighborTuple × ℕ) :=
  match max with
  | none => some p
  | some m =>
    if m.1.willingness < p.1.willingness then some p
    else if p.1.willingness = m.1.willingness then
      if m.2 < p.2 then some p
      else if p.2 = m.2 then if s.degree m.1 < s.degree p.1 then some p else some m
      else some m
    else some m

def candidates (n : List NeighborTuple) (n2 : List TwoHopNeighborTuple) :
    List (NeighborTuple × ℕ) :=
  (((n.map (reach n2)).dedup.insertionSort (· ≤ ·)).filter (· ≠ 0)).flatMap fun r =>
    (n.filter fun m => reach n2 m = r).map fun m => (m, r)

def selectMpr (s : MprNode) (n2 : List TwoHopNeighborTuple) : Option NeighborTuple :=
  ((candidates s.symNeighbors n2).foldl s.better none).map Prod.fst

def coverRest (s : MprNode) : ℕ → Work → Option MprSet
  | fuel, w =>
    if w.n2 = [] then some w.mprSet
    else match fuel with
      | 0 => none
      | fuel + 1 =>
        coverRest s fuel (match s.selectMpr w.n2 with
          | some max => w.choose max.neighborMainAddr
          | none => w)

def mprComputation (s : MprNode) (fuel : ℕ) : Option MprSet :=
  coverRest s fuel (chooseSole (chooseAlways s.symNeighbors ⟨∅, s.n2⟩))

section Coverage
variable {s : MprNode} {w : Work} {n m : NeighborTuple} {t : TwoHopNeighborTuple}
  {addr : Ipv4Address} {n2 : List TwoHopNeighborTuple}

theorem mem_cover : t ∈ coverTwoHopNeighbors addr n2 ↔
    t ∈ n2 ∧ ∀ o ∈ n2, o.neighborMainAddr = addr → o.twoHopNeighborAddr ≠ t.twoHopNeighborAddr := by
  unfold coverTwoHopNeighbors
  simp only [List.mem_filter, List.mem_map, decide_eq_true_eq, not_exists, not_and, and_imp]

def Willing (s : MprNode) (addr : Ipv4Address) : Prop :=
  ∃ n ∈ s.symNeighbors, n.neighborMainAddr = addr ∧ n.willingness ≠ Willingness.never

theorem symNeighbors_inj (hn : n ∈ s.symNeighbors) (hm : m ∈ s.symNeighbors)
    (h : n.neighborMainAddr = m.neighborMainAddr) : n = m :=
  List.inj_on_of_nodup_map s.neighbors.oneEach (List.mem_of_mem_filter hn)
    (List.mem_of_mem_filter hm) h

theorem mem_n2 : t ∈ s.n2 ↔ t ∈ s.twoHopNeighbors ∧ t.twoHopNeighborAddr ≠ s.mainAddress ∧
    s.Willing t.neighborMainAddr ∧
    ∀ n ∈ s.symNeighbors, n.neighborMainAddr ≠ t.twoHopNeighborAddr := by
  have hfind : ((findNeighborTuple s.symNeighbors t.neighborMainAddr).any fun n =>
      n.willingness ≠ Willingness.never) ↔ s.Willing t.neighborMainAddr := by
    rw [Option.any_eq_true]
    constructor
    · rintro ⟨n, hf, hw⟩
      exact ⟨n, List.mem_of_find?_eq_some hf, by simpa using List.find?_some hf, by simpa using hw⟩
    · rintro ⟨n, hn, ha, hw⟩
      cases hf : findNeighborTuple s.symNeighbors t.neighborMainAddr with
      | none =>
        have := List.find?_eq_none.mp hf n hn
        simp [ha] at this
      | some m =>
        have hm : m.neighborMainAddr = t.neighborMainAddr := by simpa using List.find?_some hf
        obtain rfl := symNeighbors_inj (List.mem_of_find?_eq_some hf) hn (hm.trans ha.symm)
        exact ⟨m, rfl, by simpa using hw⟩
  simp only [n2, List.mem_filter, admits, decide_eq_true_eq, hfind]

/-- What is left belongs to the working set, an address is covered or has all its records
left, and the chosen neighbors may be chosen. -/
structure Covers (s : MprNode) (w : Work) : Prop where
  left : w.n2.Sublist s.n2
  covered : ∀ t ∈ s.n2, t ∈ w.n2 ∨
    ∃ o ∈ s.n2, o.neighborMainAddr ∈ w.mprSet ∧ o.twoHopNeighborAddr = t.twoHopNeighborAddr
  members : ∀ a ∈ w.mprSet, s.Willing a

namespace Covers

theorem choose (h : Covers s w) (ha : s.Willing addr) : Covers s (w.choose addr) := by
  refine ⟨List.filter_sublist.trans h.left, fun t ht => ?_, fun a hm => ?_⟩
  · rcases h.covered t ht with hl | ⟨o, ho, hm, heq⟩
    · by_cases hc : t ∈ coverTwoHopNeighbors addr w.n2
      · exact .inl hc
      · rw [mem_cover, not_and] at hc
        have hc := hc hl
        push Not at hc
        obtain ⟨o, ho, rfl, heq⟩ := hc
        exact .inr ⟨o, h.left.subset ho, Finset.mem_insert_self _ _, heq⟩
    · exact .inr ⟨o, ho, Finset.mem_insert_of_mem hm, heq⟩
  · rcases Finset.mem_insert.mp hm with rfl | hm
    · exact ha
    · exact h.members a hm

theorem always {l : List NeighborTuple} (hl : ∀ n ∈ l, n ∈ s.symNeighbors) (h : Covers s w) :
    Covers s (chooseAlways l w) := by
  induction l generalizing w with
  | nil => exact h
  | cons n rest ih =>
    refine ih (fun m hm => hl m (List.mem_cons_of_mem _ hm)) ?_
    dsimp only
    split_ifs with hw
    · exact h.choose ⟨n, hl n List.mem_cons_self, rfl, by rw [hw]; decide⟩
    · exact h

theorem sole (h : Covers s w) : Covers s (chooseSole w) := by
  refine ⟨List.filter_sublist.trans h.left, fun t ht => ?_, fun a hm => ?_⟩
  · rcases h.covered t ht with hl | ⟨o, ho, hm, heq⟩
    · by_cases hc : t ∈ (chooseSole w).n2
      · exact .inl hc
      · -- the address was noted as reached by a neighbor that is the only one for another
        simp only [chooseSole, List.mem_filter, hl, true_and, decide_eq_true_eq, not_not,
          List.mem_flatMap, List.mem_map] at hc
        obtain ⟨t', ⟨ht', hone⟩, o, ⟨ho, hno⟩, heq⟩ := hc
        refine .inr ⟨o, h.left.subset ho, Finset.mem_union_right _ ?_, heq⟩
        rw [hno, List.mem_toFinset]
        exact List.mem_map_of_mem (List.mem_filter.mpr ⟨ht', hone⟩)
    · exact .inr ⟨o, ho, Finset.mem_union_left _ hm, heq⟩
  · rcases Finset.mem_union.mp hm with hm | hm
    · exact h.members a hm
    · rw [List.mem_toFinset] at hm
      obtain ⟨t, ht, rfl⟩ := List.mem_map.mp hm
      exact (mem_n2.mp (h.left.subset (List.mem_of_mem_filter ht))).2.2.1

end Covers

theorem mprSet_chooseAlways (l : List NeighborTuple) :
    w.mprSet ⊆ (chooseAlways l w).mprSet ∧
      ∀ n ∈ l, n.willingness = Willingness.always →
        n.neighborMainAddr ∈ (chooseAlways l w).mprSet := by
  induction l generalizing w with
  | nil => exact ⟨Finset.Subset.refl _, fun n hn => absurd hn List.not_mem_nil⟩
  | cons n rest ih =>
    obtain ⟨hsub, hall⟩ := ih (w := if n.willingness = Willingness.always then
      w.choose n.neighborMainAddr else w)
    refine ⟨fun a ha => hsub ?_, fun m hm hw => ?_⟩
    · split_ifs
      · exact Finset.mem_insert_of_mem ha
      · exact ha
    · rcases List.mem_cons.mp hm with rfl | hm
      · refine hsub ?_
        rw [if_pos hw]
        exact Finset.mem_insert_self _ _
      · exact hall m hm hw

end Coverage

section Selection
variable {s : MprNode} {w : Work} {n : NeighborTuple} {p : NeighborTuple × ℕ}
  {n2 : List TwoHopNeighborTuple} {l : List NeighborTuple}

theorem mem_candidates : p ∈ candidates l n2 ↔
    p.1 ∈ l ∧ p.2 = reach n2 p.1 ∧ reach n2 p.1 ≠ 0 := by
  unfold candidates
  simp only [List.mem_flatMap, List.mem_filter, List.mem_insertionSort, List.mem_dedup,
    List.mem_map, decide_eq_true_eq]
  constructor
  · rintro ⟨r, ⟨-, hr⟩, n, ⟨hn, rfl⟩, rfl⟩
    exact ⟨hn, rfl, hr⟩
  · rintro ⟨hn, hp, hr⟩
    exact ⟨p.2, ⟨⟨p.1, hn, hp.symm⟩, hp ▸ hr⟩, p.1, ⟨hn, hp.symm⟩, rfl⟩

theorem better_cases (s : MprNode) (max : Option (NeighborTuple × ℕ)) (p : NeighborTuple × ℕ) :
    s.better max p = some p ∨ (max ≠ none ∧ s.better max p = max) := by
  unfold better
  cases max with
  | none => exact .inl rfl
  | some m =>
    dsimp only
    split_ifs <;> simp

theorem foldl_better (s : MprNode) (ps : List (NeighborTuple × ℕ))
    (max : Option (NeighborTuple × ℕ)) :
    ps.foldl s.better max = max ∧ (ps = [] ∨ max ≠ none) ∨
      ∃ p ∈ ps, ps.foldl s.better max = some p := by
  induction ps generalizing max with
  | nil => exact .inl ⟨rfl, .inl rfl⟩
  | cons p rest ih =>
    rw [List.foldl_cons]
    rcases ih (s.better max p) with ⟨heq, -⟩ | ⟨q, hq, heq⟩
    · rcases better_cases s max p with hb | ⟨hne, hb⟩
      · exact .inr ⟨p, List.mem_cons_self, heq.trans hb⟩
      · exact .inl ⟨heq.trans hb, .inr hne⟩
    · exact .inr ⟨q, List.mem_cons_of_mem _ hq, heq⟩

theorem selectMpr_some (h : Covers s w) (hne : w.n2 ≠ []) :
    ∃ max, s.selectMpr w.n2 = some max ∧
      ∃ t ∈ w.n2, t.neighborMainAddr = max.neighborMainAddr := by
  obtain ⟨t, ht⟩ := List.exists_mem_of_ne_nil _ hne
  obtain ⟨n, hn, hna, -⟩ := (mem_n2.mp (h.left.subset ht)).2.2.1
  have hreach : reach w.n2 n ≠ 0 := by
    have hpos : 0 < reach w.n2 n := List.countP_pos_iff.mpr ⟨t, ht, by simpa using hna⟩
    omega
  have hcand : (n, reach w.n2 n) ∈ candidates s.symNeighbors w.n2 :=
    mem_candidates.mpr ⟨hn, rfl, hreach⟩
  rcases foldl_better s (candidates s.symNeighbors w.n2) none with ⟨-, hnil | hne'⟩ | ⟨p, hp, heq⟩
  · simp [hnil] at hcand
  · exact absurd rfl hne'
  · obtain ⟨-, -, hpr⟩ := mem_candidates.mp hp
    obtain ⟨t', ht', hta⟩ := List.countP_pos_iff.mp (Nat.pos_of_ne_zero hpr)
    refine ⟨p.1, by rw [selectMpr, heq]; rfl, t', ht', ?_⟩
    exact (of_decide_eq_true hta).symm

theorem choose_turn (h : Covers s w) {max : NeighborTuple} {t : TwoHopNeighborTuple}
    (ht : t ∈ w.n2) (hta : t.neighborMainAddr = max.neighborMainAddr) :
    Covers s (w.choose max.neighborMainAddr) ∧
      (w.choose max.neighborMainAddr).n2.length < w.n2.length := by
  refine ⟨h.choose (hta ▸ (mem_n2.mp (h.left.subset ht)).2.2.1), ?_⟩
  refine List.length_filter_lt_length_iff_exists.mpr ⟨t, ht, ?_⟩
  simp only [decide_eq_true_eq, not_not]
  exact List.mem_map_of_mem (List.mem_filter.mpr ⟨ht, by simpa using hta⟩)

theorem coverRest_nil (fuel : ℕ) (hnil : w.n2 = []) : s.coverRest fuel w = some w.mprSet := by
  cases fuel <;> rw [coverRest, if_pos hnil]

theorem coverRest_spec (fuel : ℕ) (h : Covers s w) (hf : w.n2.length ≤ fuel) :
    ∃ mprSet, s.coverRest fuel w = some mprSet ∧ w.mprSet ⊆ mprSet ∧ Covers s ⟨mprSet, []⟩ := by
  induction fuel generalizing w with
  | zero =>
    have hnil : w.n2 = [] := List.eq_nil_of_length_eq_zero (by omega)
    refine ⟨w.mprSet, coverRest_nil _ hnil, Finset.Subset.refl _, ?_⟩
    exact ⟨by simp, fun t ht => hnil ▸ h.covered t ht, h.members⟩
  | succ fuel ih =>
    by_cases hnil : w.n2 = []
    · refine ⟨w.mprSet, coverRest_nil _ hnil, Finset.Subset.refl _, ?_⟩
      exact ⟨by simp, fun t ht => hnil ▸ h.covered t ht, h.members⟩
    · obtain ⟨max, hsel, t, ht, hta⟩ := selectMpr_some h hnil
      obtain ⟨hc, hlt⟩ := choose_turn h ht hta
      obtain ⟨mprSet, heq, hsub, hcov⟩ := ih hc (by omega)
      refine ⟨mprSet, ?_, (Finset.subset_insert _ _).trans hsub, hcov⟩
      rw [coverRest, if_neg hnil]
      simpa only [hsel] using heq

theorem coverRest_more {fuel : ℕ} {mprSet : MprSet} (h : s.coverRest fuel w = some mprSet)
    (more : ℕ) : s.coverRest (fuel + more) w = some mprSet := by
  induction fuel generalizing w with
  | zero =>
    rw [coverRest] at h
    split_ifs at h with hnil
    rw [coverRest_nil _ hnil]
    exact h
  | succ fuel ih =>
    rw [coverRest] at h
    rw [Nat.succ_add, coverRest]
    split_ifs at h ⊢
    · exact h
    · exact ih h

end Selection

/-- What an MPR set is for: the members are willing symmetric neighbors, those that are
always willing among them, and every two-hop address is reached through a member. -/
structure IsMprSet (s : MprNode) (mprSet : MprSet) : Prop where
  covers : ∀ t ∈ s.twoHopNeighbors, t.twoHopNeighborAddr ≠ s.mainAddress →
    (∀ n ∈ s.neighbors.list, n.status = .sym → n.neighborMainAddr ≠ t.twoHopNeighborAddr) →
    (∃ n ∈ s.neighbors.list, n.status = .sym ∧ n.willingness ≠ Willingness.never ∧
      n.neighborMainAddr = t.neighborMainAddr) →
    ∃ m ∈ mprSet, ∃ o ∈ s.twoHopNeighbors, o.neighborMainAddr = m ∧
      o.twoHopNeighborAddr = t.twoHopNeighborAddr
  members : ∀ m ∈ mprSet, ∃ n ∈ s.neighbors.list, n.neighborMainAddr = m ∧ n.status = .sym ∧
    n.willingness ≠ Willingness.never
  always : ∀ n ∈ s.neighbors.list, n.status = .sym → n.willingness = Willingness.always →
    n.neighborMainAddr ∈ mprSet

/-- The computation ends, after a turn of the last loop for every record at most. -/
theorem mpr_computation_covers (s : MprNode) :
    ∃ mprSet, IsMprSet s mprSet ∧
      ∀ fuel, s.twoHopNeighbors.length ≤ fuel → s.mprComputation fuel = some mprSet := by
  have hinit : Covers s ⟨∅, s.n2⟩ := ⟨List.Sublist.refl _, fun _ ht => .inl ht, by simp⟩
  have hwork : Covers s (chooseSole (chooseAlways s.symNeighbors ⟨∅, s.n2⟩)) :=
    (hinit.always fun _ hn => hn).sole
  set w := chooseSole (chooseAlways s.symNeighbors ⟨∅, s.n2⟩)
  obtain ⟨mprSet, heq, hsub, hcov⟩ := coverRest_spec w.n2.length hwork (Nat.le_refl _)
  have hlen : w.n2.length ≤ s.twoHopNeighbors.length :=
    (hwork.left.trans List.filter_sublist).length_le
  refine ⟨mprSet, ⟨fun t ht hmain hsym ⟨n, hn, hs, hwill, hna⟩ => ?_, fun m hm => ?_, ?_⟩, ?_⟩
  · have hsymN : ∀ n ∈ s.symNeighbors, n.neighborMainAddr ≠ t.twoHopNeighborAddr := fun n hn =>
      hsym n (List.mem_of_mem_filter hn) (of_decide_eq_true (List.mem_filter.mp hn).2)
    have hN : n ∈ s.symNeighbors := List.mem_filter.mpr ⟨hn, decide_eq_true hs⟩
    rcases hcov.covered t (mem_n2.mpr ⟨ht, hmain, ⟨n, hN, hna, hwill⟩, hsymN⟩) with hnil | hc
    · exact absurd hnil List.not_mem_nil
    · obtain ⟨o, ho, hm, heq⟩ := hc
      exact ⟨_, hm, o, (mem_n2.mp ho).1, rfl, heq⟩
  · obtain ⟨n, hn, hna, hwill⟩ := hcov.members m hm
    obtain ⟨hl, hs⟩ := List.mem_filter.mp hn
    exact ⟨n, hl, hna, of_decide_eq_true hs, hwill⟩
  · intro n hn hs halw
    have hN : n ∈ s.symNeighbors := List.mem_filter.mpr ⟨hn, decide_eq_true hs⟩
    exact hsub (Finset.mem_union_left _ ((mprSet_chooseAlways _).2 n hN halw))
  · intro fuel hfuel
    obtain ⟨more, rfl⟩ := Nat.exists_eq_add_of_le (hlen.trans hfuel)
    exact coverRest_more heq more

end MprNode
end NetGymSim.Olsr

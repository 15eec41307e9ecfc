import NetGymSim.Olsr.MprComputation
import Mathlib.Data.Finset.Card
import Mathlib.Data.Prod.Lex
import Mathlib.Data.FinEnum

/-!
# The choices of the MPR computation

Step 4 takes, while a two-hop node is not covered, a neighbor of the greatest willingness, and among
those one that reaches the most uncovered nodes. The last tie-break is the degree, and `Degree`
looks up the neighbor of a two-hop tuple where its two-hop address is meant: no neighbor is missing
there, every degree is zero, and the first of the neighbors that tie is taken.
-/

namespace NetGymSim.Olsr
namespace MprNode
variable {s : MprNode} {w : Work} {n m max : NeighborTuple} {t : TwoHopNeighborTuple}
  {addr : Ipv4Address}

/-- D(y): the two-hop tuples of the neighbor with an address that is neither a neighbor of this
node nor the node itself. -/
def neighborDegree (s : MprNode) (n : NeighborTuple) : ℕ :=
  s.twoHopNeighbors.countP fun t => t.neighborMainAddr = n.neighborMainAddr ∧
    t.twoHopNeighborAddr ≠ s.mainAddress ∧
    ∀ m ∈ s.neighbors.list, m.neighborMainAddr ≠ t.twoHopNeighborAddr

def Uncovered (s : MprNode) (mprSet : MprSet) (addr : Ipv4Address) : Prop :=
  (∃ t ∈ s.n2, t.twoHopNeighborAddr = addr) ∧ ∀ m ∈ mprSet, ⟨m, addr⟩ ∉ s.twoHopNeighbors

instance (s : MprNode) (mprSet : MprSet) (addr : Ipv4Address) :
    Decidable (s.Uncovered mprSet addr) :=
  -- through the set, not through all addresses
  have : Decidable (∀ m ∈ mprSet, ⟨m, addr⟩ ∉ s.twoHopNeighbors) := Finset.decidableDforallFinset
  inferInstanceAs (Decidable ((∃ t ∈ s.n2, t.twoHopNeighborAddr = addr) ∧
    ∀ m ∈ mprSet, ⟨m, addr⟩ ∉ s.twoHopNeighbors))

def reached (s : MprNode) (mprSet : MprSet) (n : NeighborTuple) : Finset Ipv4Address :=
  ((s.twoHopNeighbors.filter fun t => t.neighborMainAddr = n.neighborMainAddr).map
    TwoHopNeighborTuple.twoHopNeighborAddr).toFinset.filter fun addr => s.Uncovered mprSet addr

def Greatest (s : MprNode) (mprSet : MprSet) (max : NeighborTuple) : Prop :=
  max ∈ s.symNeighbors ∧ s.reached mprSet max ≠ ∅ ∧
    ∀ n ∈ s.symNeighbors, s.reached mprSet n ≠ ∅ →
      n.willingness < max.willingness ∨ n.willingness = max.willingness ∧
        ((s.reached mprSet n).card < (s.reached mprSet max).card ∨
          (s.reached mprSet n).card = (s.reached mprSet max).card ∧
            s.neighborDegree n ≤ s.neighborDegree max)

def tops (s : MprNode) (mprSet : MprSet) : List NeighborTuple :=
  s.symNeighbors.filter fun n => s.reached mprSet n ≠ ∅ ∧
    ∀ m ∈ s.symNeighbors, s.reached mprSet m ≠ ∅ →
      m.willingness < n.willingness ∨
        m.willingness = n.willingness ∧ (s.reached mprSet m).card ≤ (s.reached mprSet n).card

def FirstOfTies (s : MprNode) (mprSet : MprSet) : Prop :=
  ∀ first rest, s.tops mprSet = first :: rest →
    ∀ n ∈ rest, s.neighborDegree n ≤ s.neighborDegree first

/-- What step 4 starts from and comes to, with a neighbor chosen in each turn. -/
inductive Round (s : MprNode) : Work → Prop
  | start : Round s (chooseSole (chooseAlways s.symNeighbors ⟨∅, s.n2⟩))
  | turn {w : Work} (max : NeighborTuple) : Round s w → w.n2 ≠ [] →
      s.selectMpr w.n2 = some max → Round s (w.choose max.neighborMainAddr)

def Left (s : MprNode) (w : Work) : Prop :=
  ∀ t, t ∈ w.n2 ↔ t ∈ s.n2 ∧ ∀ m ∈ w.mprSet, ⟨m, t.twoHopNeighborAddr⟩ ∉ s.twoHopNeighbors

theorem Left.record (h : Left s w) (ht : t ∈ w.n2) (ha : s.Willing addr) :
    (∃ o ∈ w.n2, o.neighborMainAddr = addr ∧ o.twoHopNeighborAddr = t.twoHopNeighborAddr) ↔
      ⟨addr, t.twoHopNeighborAddr⟩ ∈ s.twoHopNeighbors := by
  constructor
  · rintro ⟨⟨a, b⟩, ho, rfl, rfl⟩
    exact (mem_n2.mp ((h _).mp ho).1).1
  · intro hmem
    obtain ⟨htn, hnone⟩ := (h t).mp ht
    obtain ⟨_, hmain, _, hsym⟩ := mem_n2.mp htn
    exact ⟨⟨addr, t.twoHopNeighborAddr⟩, (h _).mpr ⟨mem_n2.mpr ⟨hmem, hmain, ha, hsym⟩, hnone⟩,
      rfl, rfl⟩

theorem Left.choose (h : Left s w) (ha : s.Willing addr) : Left s (w.choose addr) := by
  intro t
  show t ∈ coverTwoHopNeighbors addr w.n2 ↔ t ∈ s.n2 ∧ ∀ m ∈ insert addr w.mprSet,
    ⟨m, t.twoHopNeighborAddr⟩ ∉ s.twoHopNeighbors
  rw [mem_cover, Finset.forall_mem_insert]
  constructor
  · rintro ⟨ht, hnone⟩
    obtain ⟨htn, hold⟩ := (h t).mp ht
    refine ⟨htn, fun hmem => ?_, hold⟩
    obtain ⟨o, ho, hoa, hot⟩ := (h.record ht ha).mpr hmem
    exact hnone o ho hoa hot
  · rintro ⟨htn, hnew, hold⟩
    have ht : t ∈ w.n2 := (h t).mpr ⟨htn, hold⟩
    refine ⟨ht, fun o ho hoa hot => hnew ?_⟩
    exact (h.record ht ha).mp ⟨o, ho, hoa, hot⟩

theorem Left.always {l : List NeighborTuple} (hl : ∀ n ∈ l, n ∈ s.symNeighbors) (h : Left s w) :
    Left s (chooseAlways l w) := by
  induction l generalizing w with
  | nil => exact h
  | cons n rest ih =>
    refine ih (fun m hm => hl m (List.mem_cons_of_mem _ hm)) ?_
    dsimp only
    split_ifs with hw
    · exact h.choose ⟨n, hl n List.mem_cons_self, rfl, by rw [hw]; decide⟩
    · exact h

theorem Left.sole (h : Left s w) : Left s (chooseSole w) := by
  intro t
  have hsole : ∀ m, m ∈ ((w.n2.filter (onlyOne w.n2)).map
      TwoHopNeighborTuple.neighborMainAddr).toFinset ↔
        ∃ t' ∈ w.n2, onlyOne w.n2 t' = true ∧ t'.neighborMainAddr = m := by
    intro m
    simp only [List.mem_toFinset, List.mem_map, List.mem_filter, and_assoc]
  have hwilling : ∀ t' ∈ w.n2, s.Willing t'.neighborMainAddr := fun t' ht' =>
    (mem_n2.mp ((h t').mp ht').1).2.2.1
  show t ∈ w.n2.filter _ ↔ t ∈ s.n2 ∧ ∀ m ∈ w.mprSet ∪ _, _
  simp only [List.mem_filter, List.mem_flatMap, List.mem_map, decide_eq_true_eq,
    Finset.forall_mem_union, hsole]
  constructor
  · rintro ⟨ht, hnone⟩
    obtain ⟨htn, hold⟩ := (h t).mp ht
    refine ⟨htn, hold, ?_⟩
    rintro m ⟨t', ht', hone, rfl⟩ hmem
    obtain ⟨o, ho, hoa, hot⟩ := (h.record ht (hwilling t' ht')).mpr hmem
    exact hnone ⟨t', ⟨ht', hone⟩, o, ⟨ho, hoa⟩, hot⟩
  · rintro ⟨htn, hold, hnew⟩
    have ht : t ∈ w.n2 := (h t).mpr ⟨htn, hold⟩
    refine ⟨ht, ?_⟩
    rintro ⟨t', ⟨ht', hone⟩, o, ⟨ho, hoa⟩, hot⟩
    exact hnew _ ⟨t', ht', hone, rfl⟩ ((h.record ht (hwilling t' ht')).mp ⟨o, ho, hoa, hot⟩)

theorem Round.covers (h : Round s w) : Covers s w ∧ Left s w := by
  induction h with
  | start =>
    have hcovers : Covers s ⟨∅, s.n2⟩ :=
      ⟨List.Sublist.refl _, fun _ ht => .inl ht, fun a ha => absurd ha (Finset.notMem_empty a)⟩
    have hleft : Left s ⟨∅, s.n2⟩ := fun t =>
      ⟨fun ht => ⟨ht, fun m hm => absurd hm (Finset.notMem_empty m)⟩, fun ht => ht.1⟩
    exact ⟨(hcovers.always fun _ hn => hn).sole, (hleft.always fun _ hn => hn).sole⟩
  | turn max _ hne hmax ih =>
    obtain ⟨max', hmax', t, ht, hta⟩ := selectMpr_some ih.1 hne
    obtain rfl : max' = max := Option.some.inj (hmax'.symm.trans hmax)
    have hwilling := (mem_n2.mp (ih.1.left.subset ht)).2.2.1
    rw [hta] at hwilling
    exact ⟨(choose_turn ih.1 ht hta).1, ih.2.choose hwilling⟩

section Selected
variable {p q : NeighborTuple × ℕ} {ps : List (NeighborTuple × ℕ)}
  {n2 : List TwoHopNeighborTuple}

theorem degree_eq_zero (hn : n ∈ s.symNeighbors) : s.degree n = 0 := by
  apply List.countP_eq_zero.mpr
  intro t _ hcounted
  obtain ⟨hta, hnone⟩ := of_decide_eq_true hcounted
  rw [Option.isNone_iff_eq_none, findNeighborTuple, List.find?_eq_none] at hnone
  exact hnone n (List.mem_of_mem_filter hn) (decide_eq_true hta.symm)

def key (p : NeighborTuple × ℕ) : ℕ ×ₗ ℕ := toLex (p.1.willingness.toNat, p.2)

theorem key_lt_iff : key p < key q ↔ p.1.willingness < q.1.willingness ∨
    p.1.willingness = q.1.willingness ∧ p.2 < q.2 := by
  rw [key, key, Prod.Lex.toLex_lt_toLex, UInt8.lt_iff_toNat_lt, ← UInt8.toNat_inj]

theorem better_eq (hp : s.degree p.1 = 0) (hq : s.degree q.1 = 0) :
    s.better (some p) q = if key p < key q then some q else some p := by
  simp only [better, hp, hq, Nat.lt_irrefl, if_false, key_lt_iff]
  by_cases hless : p.1.willingness < q.1.willingness
  · simp [hless]
  · by_cases hsame : q.1.willingness = p.1.willingness
    · simp [hsame]
    · simp [hless, hsame, Ne.symm hsame]

theorem foldl_better_first (hdegree : ∀ q ∈ ps, s.degree q.1 = 0)
    (hp : ps.foldl s.better none = some p) :
    ∃ front rest, ps = front ++ p :: rest ∧ (∀ q ∈ front, key q < key p) ∧
      ∀ q ∈ rest, key q ≤ key p := by
  induction ps using List.reverseRecOn generalizing p with
  | nil => cases hp
  | append_singleton ps q ih =>
    have hps : ∀ q ∈ ps, s.degree q.1 = 0 := fun r hr => hdegree r (List.mem_append_left [q] hr)
    have hq : s.degree q.1 = 0 := hdegree q (List.mem_append_right ps List.mem_cons_self)
    rw [List.foldl_append, List.foldl_cons, List.foldl_nil] at hp
    cases hfold : ps.foldl s.better none with
    | none =>
      rw [hfold] at hp
      obtain rfl : q = p := Option.some.inj hp
      obtain ⟨-, hnil | hne⟩ | ⟨r, _, hr⟩ := foldl_better s ps none
      · rw [hnil]
        exact ⟨[], [], rfl, fun r hr => absurd hr List.not_mem_nil,
          fun r hr => absurd hr List.not_mem_nil⟩
      · exact absurd rfl hne
      · rw [hr] at hfold
        cases hfold
    | some r =>
      obtain ⟨front, rest, hsplit, hfront, hrest⟩ := ih hps hfold
      have hr : s.degree r.1 = 0 :=
        hps r (hsplit ▸ List.mem_append_right front List.mem_cons_self)
      rw [hfold, better_eq hr hq] at hp
      split_ifs at hp with hless
      · obtain rfl : q = p := Option.some.inj hp
        refine ⟨ps, [], rfl, fun x hx => ?_, fun r hr => absurd hr List.not_mem_nil⟩
        rw [hsplit, List.mem_append, List.mem_cons] at hx
        obtain hx | rfl | hx := hx
        · exact (hfront x hx).trans hless
        · exact hless
        · exact (hrest x hx).trans_lt hless
      · obtain rfl : r = p := Option.some.inj hp
        refine ⟨front, rest ++ [q], by rw [hsplit, List.append_assoc, List.cons_append], hfront,
          fun x hx => ?_⟩
        obtain hx | hx := List.mem_append.mp hx
        · exact hrest x hx
        · rw [List.mem_singleton.mp hx]
          exact not_lt.mp hless

theorem flatMap_single {α β : Type*} [DecidableEq α] {l : List α} {a : α} (hl : l.Nodup)
    (ha : a ∈ l) {f : α → List β} (hf : ∀ b, b ≠ a → f b = []) : l.flatMap f = f a := by
  induction l with
  | nil => cases ha
  | cons b l ih =>
    obtain ⟨hb, hl⟩ := List.nodup_cons.mp hl
    rw [List.flatMap_cons]
    by_cases hab : b = a
    · have hnone : l.flatMap f = [] := by
        rw [List.flatMap_eq_nil_iff]
        intro c hc
        exact hf c fun hca => hb (hab ▸ hca ▸ hc)
      rw [hnone, List.append_nil, hab]
    · rw [hf b hab, List.nil_append, ih hl ((List.mem_cons.mp ha).resolve_left (Ne.symm hab))]

theorem filter_candidates {l : List NeighborTuple} (hp : p ∈ candidates l n2) :
    (candidates l n2).filter (fun q => key q = key p) =
      (l.filter fun n => n.willingness = p.1.willingness ∧ reach n2 n = p.2).map
        fun n => (n, p.2) := by
  obtain ⟨hmem, hreach, hne⟩ := mem_candidates.mp hp
  have hnodup : (((l.map (reach n2)).dedup.insertionSort (· ≤ ·)).filter (· ≠ 0)).Nodup :=
    ((List.perm_insertionSort _ _).nodup_iff.mpr (List.nodup_dedup _)).filter _
  have hin : p.2 ∈ ((l.map (reach n2)).dedup.insertionSort (· ≤ ·)).filter (· ≠ 0) := by
    rw [List.mem_filter, List.mem_insertionSort, List.mem_dedup, hreach]
    exact ⟨List.mem_map_of_mem hmem, decide_eq_true hne⟩
  have hkey : ∀ n r, key (n, r) = key p ↔ n.willingness = p.1.willingness ∧ r = p.2 := by
    intro n r
    rw [key, key, toLex_inj, Prod.mk.injEq, UInt8.toNat_inj]
  rw [candidates, List.filter_flatMap, flatMap_single hnodup hin]
  · simp only [List.filter_map, List.filter_filter, Function.comp_def, hkey, and_true]
    congr 1
    apply List.filter_congr
    intro n _
    simp
  · intro r hr
    rw [List.filter_eq_nil_iff]
    intro q hq
    obtain ⟨n, _, rfl⟩ := List.mem_map.mp hq
    rw [decide_eq_true_eq, hkey]
    exact fun h => hr h.2

theorem key_le_iff : key p ≤ key q ↔ p.1.willingness < q.1.willingness ∨
    p.1.willingness = q.1.willingness ∧ p.2 ≤ q.2 := by
  rw [key, key, Prod.Lex.toLex_le_toLex, UInt8.lt_iff_toNat_lt, ← UInt8.toNat_inj]

end Selected

theorem willing_of_reach (hw : Covers s w) (hn : n ∈ s.symNeighbors) (hreach : reach w.n2 n ≠ 0) :
    n.willingness ≠ Willingness.never := by
  obtain ⟨t, ht, hta⟩ := List.countP_pos_iff.mp (Nat.pos_of_ne_zero hreach)
  obtain ⟨m, hm, hma, hwill⟩ := (mem_n2.mp (hw.left.subset ht)).2.2.1
  obtain rfl := symNeighbors_inj hm hn (hma.trans (of_decide_eq_true hta).symm)
  exact hwill

theorem card_reached (hset : s.twoHopNeighbors.Nodup) (hw : Covers s w) (hleft : Left s w)
    (hn : n ∈ s.symNeighbors) (hwill : n.willingness ≠ Willingness.never) :
    (s.reached w.mprSet n).card = reach w.n2 n := by
  have heq : s.reached w.mprSet n =
      ((w.n2.filter fun t => n.neighborMainAddr = t.neighborMainAddr).map
        TwoHopNeighborTuple.twoHopNeighborAddr).toFinset := by
    ext a
    simp only [reached, Finset.mem_filter, List.mem_toFinset, List.mem_map, List.mem_filter,
      decide_eq_true_eq]
    constructor
    · rintro ⟨⟨t, ⟨ht, hta⟩, rfl⟩, ⟨t', ht', hsame⟩, hnone⟩
      rw [← hsame] at hnone
      have hin : t' ∈ w.n2 := (hleft t').mpr ⟨ht', hnone⟩
      have hmem : ⟨n.neighborMainAddr, t'.twoHopNeighborAddr⟩ ∈ s.twoHopNeighbors := by
        rw [hsame, ← hta]
        exact ht
      obtain ⟨o, ho, hoa, hot⟩ := (hleft.record hin ⟨n, hn, rfl, hwill⟩).mpr hmem
      exact ⟨o, ⟨ho, hoa.symm⟩, hot.trans hsame⟩
    · rintro ⟨t, ⟨ht, hta⟩, rfl⟩
      obtain ⟨htn, hnone⟩ := (hleft t).mp ht
      exact ⟨⟨t, ⟨(mem_n2.mp htn).1, hta.symm⟩, rfl⟩, ⟨t, htn, rfl⟩, hnone⟩
  have hnodup : w.n2.Nodup := (hset.filter _).sublist hw.left
  rw [heq, List.toFinset_card_of_nodup, List.length_map, reach, List.countP_eq_length_filter]
  apply (hnodup.filter _).map_on
  intro t ht t' ht' hsame
  have hta := of_decide_eq_true (List.mem_filter.mp ht).2
  have hta' := of_decide_eq_true (List.mem_filter.mp ht').2
  cases t
  cases t'
  exact congrArg₂ _ (hta.symm.trans hta') hsame

theorem never_lt {x : Willingness} (hx : x ≠ Willingness.never) : Willingness.never < x := by
  rw [UInt8.lt_iff_toNat_lt]
  rw [Ne, ← UInt8.toNat_inj] at hx
  have hzero : Willingness.never.toNat = 0 := rfl
  omega

theorem not_lt_never (x : Willingness) : ¬ x < Willingness.never := by
  rw [UInt8.lt_iff_toNat_lt]
  exact Nat.not_lt_zero _

theorem selectMpr_first (hset : s.twoHopNeighbors.Nodup) (hw : Covers s w) (hleft : Left s w)
    (hmax : s.selectMpr w.n2 = some max) : ∃ rest, s.tops w.mprSet = max :: rest := by
  obtain ⟨p, hp, rfl⟩ := Option.map_eq_some_iff.mp hmax
  have hdegree : ∀ q ∈ candidates s.symNeighbors w.n2, s.degree q.1 = 0 := fun q hq =>
    degree_eq_zero (mem_candidates.mp hq).1
  obtain ⟨front, rest, hsplit, hfront, hrest⟩ := foldl_better_first hdegree hp
  have hcand : p ∈ candidates s.symNeighbors w.n2 :=
    hsplit ▸ List.mem_append_right front List.mem_cons_self
  obtain ⟨hmem, hreach, hne⟩ := mem_candidates.mp hcand
  have hwill := willing_of_reach hw hmem hne
  have hall : ∀ n ∈ s.symNeighbors, reach w.n2 n ≠ 0 →
      n.willingness < p.1.willingness ∨
        n.willingness = p.1.willingness ∧ reach w.n2 n ≤ p.2 := by
    intro n hn hr
    have hq : (n, reach w.n2 n) ∈ front ++ p :: rest :=
      hsplit ▸ mem_candidates.mpr ⟨hn, rfl, hr⟩
    apply (key_le_iff (p := (n, reach w.n2 n)) (q := p)).mp
    obtain hq | hq := List.mem_append.mp hq
    · exact (hfront _ hq).le
    · obtain hq | hq := List.mem_cons.mp hq
      · rw [hq]
      · exact hrest _ hq
  have htops : s.tops w.mprSet =
      s.symNeighbors.filter fun n => n.willingness = p.1.willingness ∧ reach w.n2 n = p.2 := by
    apply List.filter_congr
    intro n hn
    apply decide_eq_decide.mpr
    have hcardMax := card_reached hset hw hleft hmem hwill
    constructor
    · rintro ⟨hsome, hgreatest⟩
      have hmaxSome : s.reached w.mprSet p.1 ≠ ∅ := by
        rw [Ne, ← Finset.card_eq_zero, hcardMax]
        exact hne
      have hcompare := hgreatest p.1 hmem hmaxSome
      have hnwill : n.willingness ≠ Willingness.never := by
        intro hnever
        obtain hless | hsame := hcompare
        · exact not_lt_never _ (hnever ▸ hless)
        · exact hwill (hsame.1.trans hnever)
      have hcard := card_reached hset hw hleft hn hnwill
      have hnreach : reach w.n2 n ≠ 0 := by
        rwa [← hcard, Ne, Finset.card_eq_zero]
      rw [hcard, hcardMax] at hcompare
      obtain hless | ⟨hsame, hle⟩ := hall n hn hnreach
      · obtain hmore | hmore := hcompare
        · exact absurd hless (UInt8.lt_asymm hmore)
        · exact absurd hless (hmore.1 ▸ UInt8.lt_irrefl _)
      · obtain hmore | hmore := hcompare
        · exact absurd hmore (hsame ▸ UInt8.lt_irrefl _)
        · exact ⟨hsame, by omega⟩
    · rintro ⟨hsame, heq⟩
      have hnwill : n.willingness ≠ Willingness.never := hsame ▸ hwill
      have hcard := card_reached hset hw hleft hn hnwill
      refine ⟨?_, fun m hm hmsome => ?_⟩
      · rw [Ne, ← Finset.card_eq_zero, hcard, heq, hreach]
        exact hne
      · by_cases hmwill : m.willingness = Willingness.never
        · exact .inl (hmwill ▸ never_lt hnwill)
        · have hmcard := card_reached hset hw hleft hm hmwill
          rw [Ne, ← Finset.card_eq_zero, hmcard] at hmsome
          rw [hmcard, hcard, heq, hsame]
          exact hall m hm hmsome
  have hfirst : (candidates s.symNeighbors w.n2).filter (fun q => key q = key p) =
      p :: rest.filter fun q => key q = key p := by
    have hnone : front.filter (fun q => key q = key p) = [] := by
      rw [List.filter_eq_nil_iff]
      intro q hq
      simpa using (hfront q hq).ne
    rw [hsplit, List.filter_append, hnone, List.nil_append, List.filter_cons_of_pos (by simp)]
  rw [filter_candidates hcand, ← htops] at hfirst
  obtain ⟨n, rest', hn, hnp, _⟩ := List.map_eq_cons_iff.mp hfirst
  rw [← hnp]
  exact ⟨rest', hn⟩

theorem greatest_iff_first {mprSet : MprSet} {rest : List NeighborTuple}
    (htops : s.tops mprSet = max :: rest) :
    s.Greatest mprSet max ↔ ∀ n ∈ rest, s.neighborDegree n ≤ s.neighborDegree max := by
  have htop : ∀ n, n ∈ max :: rest ↔ n ∈ s.symNeighbors ∧ s.reached mprSet n ≠ ∅ ∧
      ∀ m ∈ s.symNeighbors, s.reached mprSet m ≠ ∅ → m.willingness < n.willingness ∨
        m.willingness = n.willingness ∧
          (s.reached mprSet m).card ≤ (s.reached mprSet n).card := by
    intro n
    rw [← htops, tops, List.mem_filter, decide_eq_true_eq]
  obtain ⟨hmem, hsome, hgreatest⟩ := (htop max).mp List.mem_cons_self
  constructor
  · intro h n hn
    obtain ⟨hnmem, hnsome, hngreatest⟩ := (htop n).mp (List.mem_cons_of_mem max hn)
    have hback := hngreatest max hmem hsome
    obtain hless | ⟨hsame, hless | ⟨_, hle⟩⟩ := h.2.2 n hnmem hnsome
    · obtain hmore | hmore := hback
      · exact absurd hless (UInt8.lt_asymm hmore)
      · exact absurd hless (hmore.1 ▸ UInt8.lt_irrefl _)
    · obtain hmore | hmore := hback
      · exact absurd hmore (hsame ▸ UInt8.lt_irrefl _)
      · omega
    · exact hle
  · intro h
    refine ⟨hmem, hsome, fun n hn hnsome => ?_⟩
    obtain hless | ⟨hsame, hle⟩ := hgreatest n hn hnsome
    · exact .inl hless
    · refine .inr ⟨hsame, hle.lt_or_eq.imp id fun hcard => ⟨hcard, ?_⟩⟩
      have hnTop : n ∈ max :: rest := by
        refine (htop n).mpr ⟨hn, hnsome, fun m hm hmsome => ?_⟩
        rw [hsame, hcard]
        exact hgreatest m hm hmsome
      obtain rfl | hn := List.mem_cons.mp hnTop
      · exact le_refl _
      · exact h n hn

theorem choices_greatest_iff (hset : s.twoHopNeighbors.Nodup) :
    (∀ w max, Round s w → w.n2 ≠ [] → s.selectMpr w.n2 = some max → s.Greatest w.mprSet max) ↔
      ∀ w, Round s w → w.n2 ≠ [] → s.FirstOfTies w.mprSet := by
  constructor
  · intro h w hw hne first rest htops
    obtain ⟨max, hmax, _⟩ := selectMpr_some hw.covers.1 hne
    obtain ⟨rest', hfirst⟩ := selectMpr_first hset hw.covers.1 hw.covers.2 hmax
    rw [hfirst] at htops
    obtain ⟨rfl, rfl⟩ := List.cons.inj htops
    exact (greatest_iff_first hfirst).mp (h w max hw hne hmax)
  · intro h w max hw hne hmax
    obtain ⟨rest, hfirst⟩ := selectMpr_first hset hw.covers.1 hw.covers.2 hmax
    exact (greatest_iff_first hfirst).mpr (h w hw hne max rest hfirst)

/-- Neighbors 1 and 2 of the same willingness reach the node 10, and neighbor 3 is always chosen.
Neighbor 2 has a second two-hop tuple, of the node 11 that neighbor 3 covers. -/
def tiedNeighbors : MprNode where
  mainAddress := 0
  neighbors := ⟨[⟨1, .sym, 3⟩, ⟨2, .sym, 3⟩, ⟨3, .sym, 7⟩], by decide⟩
  twoHopNeighbors := [⟨1, 10⟩, ⟨2, 10⟩, ⟨2, 11⟩, ⟨3, 11⟩]

theorem choices_greatest_tiedNeighbors :
    (∀ w max, Round tiedNeighbors w → w.n2 ≠ [] → tiedNeighbors.selectMpr w.n2 = some max →
      tiedNeighbors.Greatest w.mprSet max) ↔
    ∀ w, Round tiedNeighbors w → w.n2 ≠ [] → tiedNeighbors.FirstOfTies w.mprSet :=
  choices_greatest_iff (by decide)

/-- Neighbor 1 with degree 1 is chosen before neighbor 2 with degree 2. -/
theorem choice_not_greatest :
    ¬ ∀ s : MprNode, s.twoHopNeighbors.Nodup → ∀ w max, Round s w → w.n2 ≠ [] →
      s.selectMpr w.n2 = some max → s.Greatest w.mprSet max := by
  intro hall
  have hgreatest := hall tiedNeighbors (by decide) _ ⟨1, .sym, 3⟩ .start (by decide +kernel)
    (by decide +kernel)
  have hsecond := hgreatest.2.2 ⟨2, .sym, 3⟩ (by decide) (by decide +kernel)
  revert hsecond
  decide +kernel

end MprNode
end NetGymSim.Olsr

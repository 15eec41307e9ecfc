import Mathlib.Algebra.BigOperators.Group.List.Basic
import Mathlib.Data.List.Nodup
import NetGymSim.Gma.FqPpp
import NetGymSim.Lib.Word

/-!
# The rounds of the FqPpp queue disc

The deficits are `int32_t` and the quantum is `uint32_t`. A class is active just when it is in one
of the two lists, and in every turn of `DoDequeue` it comes closer to a positive deficit, to the
old flows or to leaving the lists. A quantum from 2^31 on is negative as a deficit: the turns then
only move away from zero, until the sum overflows.
-/

namespace NetGymSim.Gma
open NetGymSim.Lib

namespace FqPpp
variable {config : FqPppConfig} {s s' : FqPpp} {h drops : ℕ} {flow : FqPppFlow}

def storeDeficits (s : FqPpp) : FqPpp :=
  { s with flowsIndices := fun i =>
      (s.flowsIndices i).map fun flow => { flow with deficit := int32 flow.deficit } }

def overflows (config : FqPppConfig) (s : FqPpp) (drops : ℕ) : Bool :=
  match s.newFlows ++ s.oldFlows with
  | [] => false
  | h :: _ =>
      let deficit := (s.flow h).deficit
      if deficit ≤ 0 then
        int32 (deficit + int32 config.quantum) ≠ deficit + int32 config.quantum
      else
        match (s.queue h).drop drops with
        | [] => false
        | item :: _ => int32 (deficit + int32 (-item.size)) ≠ deficit + int32 (-item.size)

def storeTurn : Turn FqPpp → Turn FqPpp
  | .again s => .again s.storeDeficits
  | .done s => .done s.storeDeficits

def turn32 (config : FqPppConfig) (s : FqPpp) (drops : ℕ) : Option (Turn FqPpp) :=
  if s.overflows config drops then none else some (storeTurn (s.turn config drops))

def doDequeue32 (config : FqPppConfig) : FqPpp → List ℕ → Option FqPpp
  | _, [] => none
  | s, drops :: turns =>
      match s.turn32 config drops with
      | some (.again s') => doDequeue32 config s' turns
      | some (.done s') => if turns = [] then some s' else none
      | none => none

def doEnqueue32 (config : FqPppConfig) (s : FqPpp) (flowHash : Option ℕ) (size : ℕ)
    (admitted : Bool) : FqPpp :=
  (s.doEnqueue config flowHash size admitted).storeDeficits

/-- The packets are smaller than 2^31 bytes. -/
def machine32 (config : FqPppConfig) : Machine FqPpp FqPppEvent where
  enabled s
    | .enqueue _ size _ => size < 2147483648
    | .dequeue turns => (s.doDequeue32 config turns).isSome
  next s
    | .enqueue flowHash size admitted => s.doEnqueue32 config flowHash size admitted
    | .dequeue turns => (s.doDequeue32 config turns).getD s

instance (config : FqPppConfig) (s : FqPpp) (e : FqPppEvent) :
    Decidable ((machine32 config).enabled s e) :=
  match e with
  | .enqueue _ size _ => inferInstanceAs (Decidable (size < 2147483648))
  | .dequeue turns => inferInstanceAs (Decidable ((s.doDequeue32 config turns).isSome = true))

structure Listed (s : FqPpp) : Prop where
  nodup : (s.newFlows ++ s.oldFlows).Nodup
  active : ∀ h, (s.flow h).status ≠ .inactive ↔ h ∈ s.newFlows ++ s.oldFlows
  busy : s.Busy

structure Small (s : FqPpp) : Prop where
  deficit : ∀ h, -2147483648 ≤ (s.flow h).deficit ∧ (s.flow h).deficit < 2147483648
  size : ∀ h, ∀ item ∈ s.queue h, item.size < 2147483648

structure Replaces (s s' : FqPpp) (h : ℕ) (flow : FqPppFlow) : Prop where
  same : s'.flow h = flow
  other : ∀ i, i ≠ h → s'.flow i = s.flow i
  queue : flow.queue <:+ s.queue h

/-- What the turns of `DoDequeue` do: nothing when both lists are empty, else something to the
first class of the two. -/
inductive TurnCase (config : FqPppConfig) (s : FqPpp) : Turn FqPpp → Prop
  | idle : s.newFlows = [] → s.oldFlows = [] → TurnCase config s (.done s)
  | refill (s' : FqPpp) (h : ℕ) (rest : List ℕ) (status : FlowStatus) :
      s.newFlows ++ s.oldFlows = h :: rest → (s.flow h).deficit ≤ 0 →
      (status = .inactive → (s.flow h).status = .inactive) →
      s.Replaces s' h ⟨(s.flow h).deficit + config.quantum, status, s.queue h⟩ →
      s'.newFlows = s.newFlows.tail → s'.newFlows ++ s'.oldFlows = rest ++ [h] →
      s'.departures = s.departures → TurnCase config s (.again s')
  | toOld (s' : FqPpp) (h : ℕ) (rest : List ℕ) :
      s.newFlows = h :: rest → 0 < (s.flow h).deficit →
      s.Replaces s' h ⟨(s.flow h).deficit, .oldFlow, []⟩ →
      s'.newFlows = rest → s'.oldFlows = s.oldFlows ++ [h] →
      s'.departures = s.departures → TurnCase config s (.again s')
  | leave (s' : FqPpp) (h : ℕ) (rest : List ℕ) :
      s.newFlows = [] → s.oldFlows = h :: rest → 0 < (s.flow h).deficit →
      s.Replaces s' h ⟨(s.flow h).deficit, .inactive, []⟩ →
      s'.newFlows = [] → s'.oldFlows = rest →
      s'.departures = s.departures → TurnCase config s (.again s')
  | send (s' : FqPpp) (h : ℕ) (rest : List ℕ) (item : FqPppItem) (queue : List FqPppItem) :
      s.newFlows ++ s.oldFlows = h :: rest → 0 < (s.flow h).deficit →
      s.Replaces s' h ⟨(s.flow h).deficit - item.size, (s.flow h).status, queue⟩ →
      s'.newFlows = s.newFlows → s'.oldFlows = s.oldFlows → item ∈ s.queue h →
      s'.departures = s.departures ++ [item] → TurnCase config s (.done s')

theorem Replaces.of_setFlow (hflow : s'.flowsIndices = (s.setFlow h flow).flowsIndices)
    (hqueue : flow.queue <:+ s.queue h) : s.Replaces s' h flow := by
  have hall : ∀ i, s'.flow i = (s.setFlow h flow).flow i := fun i => by
    rw [FqPpp.flow, FqPpp.flow, hflow]
  refine ⟨?_, ?_, hqueue⟩
  · rw [hall, flow_setFlow_same]
  · intro i hi
    rw [hall, flow_setFlow_other s flow hi]

theorem serve_cases {rest : List ℕ} {newFlows : Bool} (hd : ¬ (s.flow h).deficit ≤ 0)
    (hlists : if newFlows = true then s.newFlows = h :: rest
      else s.newFlows = [] ∧ s.oldFlows = h :: rest) :
    TurnCase config s (s.serve h drops newFlows) := by
  have hfront : ∃ rest', s.newFlows ++ s.oldFlows = h :: rest' := by
    cases newFlows with
    | true =>
      rw [if_pos rfl] at hlists
      exact ⟨rest ++ s.oldFlows, by rw [hlists, List.cons_append]⟩
    | false =>
      rw [if_neg Bool.false_ne_true] at hlists
      exact ⟨rest, by rw [hlists.1, hlists.2, List.nil_append]⟩
  unfold serve
  cases hq : (s.flow h).queue.drop drops with
  | nil =>
    cases newFlows with
    | true =>
      simp only [hq, if_true] at hlists ⊢
      apply TurnCase.toOld _ h rest hlists (Int.not_le.mp hd)
      · exact .of_setFlow rfl List.nil_suffix
      · dsimp only
        rw [hlists, List.tail_cons]
      · rfl
      · rfl
    | false =>
      simp only [hq, if_neg Bool.false_ne_true] at hlists ⊢
      apply TurnCase.leave _ h rest hlists.1 hlists.2 (Int.not_le.mp hd)
      · exact .of_setFlow rfl List.nil_suffix
      · exact hlists.1
      · dsimp only
        rw [hlists.2, List.tail_cons]
      · rfl
  | cons item queue =>
    have hsuffix : item :: queue <:+ s.queue h := hq ▸ List.drop_suffix drops _
    obtain ⟨rest', hrest'⟩ := hfront
    simp only [hq]
    apply TurnCase.send _ h rest' item queue hrest' (Int.not_le.mp hd)
    · exact .of_setFlow rfl ((List.suffix_cons item queue).trans hsuffix)
    · rfl
    · rfl
    · exact hsuffix.subset List.mem_cons_self
    · rfl

theorem turn_cases (config : FqPppConfig) (s : FqPpp) (drops : ℕ) :
    TurnCase config s (s.turn config drops) := by
  unfold turn
  cases hnew : s.newFlows with
  | cons h rest =>
    dsimp only
    by_cases hd : (s.flow h).deficit ≤ 0
    · rw [if_pos hd]
      apply TurnCase.refill _ h (rest ++ s.oldFlows) .oldFlow
      · rw [hnew, List.cons_append]
      · exact hd
      · intro hinactive
        cases hinactive
      · exact .of_setFlow rfl (List.suffix_refl _)
      · rw [hnew, List.tail_cons]
      · rw [List.append_assoc]
      · rfl
    · rw [if_neg hd]
      exact serve_cases hd hnew
  | nil =>
    cases hold : s.oldFlows with
    | nil => exact .idle hnew hold
    | cons h rest =>
      dsimp only
      by_cases hd : (s.flow h).deficit ≤ 0
      · rw [if_pos hd]
        apply TurnCase.refill _ h rest (s.flow h).status
        · rw [hnew, hold, List.nil_append]
        · exact hd
        · exact id
        · exact .of_setFlow rfl (List.suffix_refl _)
        · rw [hnew, List.tail_nil]
          exact hnew
        · dsimp only [setFlow]
          rw [hnew, List.nil_append]
        · rfl
      · rw [if_neg hd]
        exact serve_cases hd ⟨hnew, hold⟩

section Kept

theorem Listed.move (hs : s.Listed) (hr : s.Replaces s' h flow)
    (hmem : h ∈ s.newFlows ++ s.oldFlows) (hactive : flow.status ≠ .inactive)
    (hperm : (s'.newFlows ++ s'.oldFlows).Perm (s.newFlows ++ s.oldFlows)) : s'.Listed := by
  refine ⟨hperm.nodup_iff.mpr hs.nodup, fun i => ?_, fun i hne => ?_⟩
  · rw [hperm.mem_iff]
    by_cases hi : i = h
    · rw [hi, hr.same]
      exact iff_of_true hactive hmem
    · rw [hr.other i hi]
      exact hs.active i
  · by_cases hi : i = h
    · rw [hi, hr.same]
      exact hactive
    · rw [FqPpp.queue, hr.other i hi] at hne
      rw [hr.other i hi]
      exact hs.busy i hne

theorem Listed.drop {rest : List ℕ} (hs : s.Listed) (hr : s.Replaces s' h flow)
    (hlists : s.newFlows ++ s.oldFlows = h :: rest) (hinactive : flow.status = .inactive)
    (hempty : flow.queue = []) (hrest : s'.newFlows ++ s'.oldFlows = rest) : s'.Listed := by
  have hnodup := hs.nodup
  rw [hlists, List.nodup_cons] at hnodup
  refine ⟨hrest ▸ hnodup.2, fun i => ?_, fun i hne => ?_⟩
  · rw [hrest]
    by_cases hi : i = h
    · rw [hi, hr.same, hinactive]
      exact iff_of_false (fun hne => hne rfl) hnodup.1
    · have hactive := hs.active i
      rw [hlists, List.mem_cons] at hactive
      rw [hr.other i hi, hactive]
      exact ⟨fun hmem => hmem.resolve_left hi, .inr⟩
  · by_cases hi : i = h
    · rw [FqPpp.queue, hi, hr.same] at hne
      exact absurd hempty hne
    · rw [FqPpp.queue, hr.other i hi] at hne
      rw [hr.other i hi]
      exact hs.busy i hne

theorem Small.replace (hs : s.Small) (hr : s.Replaces s' h flow)
    (hflow : -2147483648 ≤ flow.deficit ∧ flow.deficit < 2147483648) : s'.Small := by
  constructor
  · intro i
    by_cases hi : i = h
    · rw [hi, hr.same]
      exact hflow
    · rw [hr.other i hi]
      exact hs.deficit i
  · intro i item hitem
    by_cases hi : i = h
    · rw [hi, FqPpp.queue, hr.same] at hitem
      exact hs.size h item (hr.queue.subset hitem)
    · rw [FqPpp.queue, hr.other i hi] at hitem
      exact hs.size i item hitem

theorem turn_kept {r : Turn FqPpp} (hs : s.Listed) (hsmall : s.Small)
    (hq : config.quantum < 2147483648) (hr : TurnCase config s r) :
    match r with
    | .again s' | .done s' => s'.Listed ∧ s'.Small := by
  cases hr with
  | idle => exact ⟨hs, hsmall⟩
  | refill s' h rest status hlists hd hstatus hreplace _ hlists' _ =>
    have hmem : h ∈ s.newFlows ++ s.oldFlows := hlists ▸ List.mem_cons_self
    have hlow := hsmall.deficit h
    refine ⟨hs.move hreplace hmem ?_ ?_, hsmall.replace hreplace ?_⟩
    · exact fun hinactive => (hs.active h).mpr hmem (hstatus hinactive)
    · rw [hlists', hlists]
      exact List.perm_append_singleton h rest
    · dsimp only
      omega
  | toOld s' h rest hnew hd hreplace hnew' hold' _ =>
    have hmem : h ∈ s.newFlows ++ s.oldFlows := by
      rw [hnew, List.cons_append]
      exact List.mem_cons_self
    refine ⟨hs.move hreplace hmem nofun ?_, hsmall.replace hreplace (hsmall.deficit h)⟩
    rw [hnew', hold', hnew, ← List.append_assoc, List.cons_append]
    exact List.perm_append_singleton h (rest ++ s.oldFlows)
  | leave s' h rest hnew hold hd hreplace hnew' hold' _ =>
    have hlists : s.newFlows ++ s.oldFlows = h :: rest := by rw [hnew, hold, List.nil_append]
    have hrest : s'.newFlows ++ s'.oldFlows = rest := by rw [hnew', hold', List.nil_append]
    exact ⟨hs.drop hreplace hlists rfl rfl hrest, hsmall.replace hreplace (hsmall.deficit h)⟩
  | send s' h rest item queue hlists hd hreplace hnew' hold' hitem _ =>
    have hmem : h ∈ s.newFlows ++ s.oldFlows := hlists ▸ List.mem_cons_self
    have hhigh := hsmall.deficit h
    have hsize := hsmall.size h item hitem
    refine ⟨hs.move hreplace hmem ((hs.active h).mpr hmem) ?_, hsmall.replace hreplace ?_⟩
    · rw [hnew', hold']
    · dsimp only
      omega

end Kept

section Termination

def refills (s : FqPpp) (h : ℕ) : ℕ := (1 - (s.flow h).deficit).toNat

/-- What is left to do before a class can be asked for a packet, or is gone: a new flow has the old
flows still before it. -/
def work (s : FqPpp) : ℕ :=
  (s.newFlows.map fun h => s.refills h + 2).sum + (s.oldFlows.map fun h => s.refills h + 1).sum

theorem sum_map_le {l : List ℕ} {f g : ℕ → ℕ} (h : ∀ i, f i ≤ g i) :
    (l.map f).sum ≤ (l.map g).sum := by
  induction l with
  | nil => exact le_refl _
  | cons i rest ih =>
    rw [List.map_cons, List.map_cons, List.sum_cons, List.sum_cons]
    exact Nat.add_le_add (h i) ih

theorem work_le (hrefills : ∀ i, s'.refills i ≤ s.refills i) :
    s'.work ≤ (s'.newFlows.map fun h => s.refills h + 2).sum +
      (s'.oldFlows.map fun h => s.refills h + 1).sum :=
  Nat.add_le_add (sum_map_le fun i => Nat.add_le_add_right (hrefills i) 2)
    (sum_map_le fun i => Nat.add_le_add_right (hrefills i) 1)

theorem Replaces.refills_le (hr : s.Replaces s' h flow)
    (hflow : (s.flow h).deficit ≤ flow.deficit) (i : ℕ) : s'.refills i ≤ s.refills i := by
  unfold refills
  by_cases hi : i = h
  · rw [hi, hr.same]
    omega
  · rw [hr.other i hi]

theorem turn_work (hq : 0 < config.quantum) (hturn : TurnCase config s (.again s')) :
    s'.work < s.work := by
  cases hturn with
  | refill _ h rest status hlists hd hstatus hreplace hnew' hlists' _ =>
    have hle : ∀ i, s'.refills i ≤ s.refills i := hreplace.refills_le (by dsimp only; omega)
    have hlt : s'.refills h < s.refills h := by
      unfold refills
      rw [hreplace.same]
      dsimp only
      omega
    cases hnew : s.newFlows with
    | nil =>
      rw [hnew, List.tail_nil] at hnew'
      rw [hnew, List.nil_append] at hlists
      rw [hnew', List.nil_append] at hlists'
      have hrest := sum_map_le (l := rest) fun i => Nat.add_le_add_right (hle i) 1
      simp only [work, hnew, hlists, hnew', hlists', List.map_append, List.sum_append,
        List.map_cons, List.sum_cons, List.map_nil, List.sum_nil]
      omega
    | cons k flows =>
      rw [hnew, List.tail_cons] at hnew'
      rw [hnew, List.cons_append] at hlists
      obtain ⟨rfl, rfl⟩ := List.cons.inj hlists
      rw [hnew', List.append_assoc] at hlists'
      have hold' : s'.oldFlows = s.oldFlows ++ [k] := List.append_cancel_left hlists'
      have hflows := sum_map_le (l := flows) fun i => Nat.add_le_add_right (hle i) 2
      have hrest := sum_map_le (l := s.oldFlows) fun i => Nat.add_le_add_right (hle i) 1
      simp only [work, hnew, hnew', hold', List.map_append, List.sum_append, List.map_cons,
        List.sum_cons, List.map_nil, List.sum_nil]
      omega
  | toOld _ h rest hnew hd hreplace hnew' hold' _ =>
    have hle : ∀ i, s'.refills i ≤ s.refills i := hreplace.refills_le (Int.le_refl _)
    have hwork := work_le hle
    rw [hnew', hold', List.map_append, List.sum_append, List.map_singleton,
      List.sum_singleton] at hwork
    have hall : s.work = s.refills h + 2 + (rest.map fun h => s.refills h + 2).sum +
        (s.oldFlows.map fun h => s.refills h + 1).sum := by
      rw [work, hnew, List.map_cons, List.sum_cons]
    omega
  | leave _ h rest hnew hold hd hreplace hnew' hold' _ =>
    have hle : ∀ i, s'.refills i ≤ s.refills i := hreplace.refills_le (Int.le_refl _)
    have hwork := work_le hle
    rw [hnew', hold'] at hwork
    have hall : s.work = s.refills h + 1 + (rest.map fun h => s.refills h + 1).sum := by
      rw [work, hnew, hold, List.map_cons, List.sum_cons, List.map_nil, List.sum_nil,
        Nat.zero_add]
    simp only [List.map_nil, List.sum_nil, Nat.zero_add] at hwork
    omega

theorem doDequeue_ends (hq : 0 < config.quantum) (drops : ℕ → ℕ) :
    ∃ n s', s.doDequeue config ((List.range n).map drops) = some s' := by
  induction hwork : s.work using Nat.strong_induction_on generalizing s drops with
  | _ work ih =>
    have hcase := turn_cases config s (drops 0)
    cases hturn : s.turn config (drops 0) with
    | done s' =>
      refine ⟨1, s', ?_⟩
      simp [List.range_one, doDequeue, hturn]
    | again s' =>
      rw [hturn] at hcase
      obtain ⟨n, t, ht⟩ := ih s'.work (hwork ▸ turn_work hq hcase) (fun k => drops (k + 1)) rfl
      refine ⟨n + 1, t, ?_⟩
      rw [List.range_succ_eq_map, List.map_cons, List.map_map, doDequeue, hturn]
      exact ht

end Termination

section Width

theorem int32_of_range {x : ℤ} (h : -2147483648 ≤ x ∧ x < 2147483648) : int32 x = x := by
  unfold int32
  omega

theorem storeDeficits_flow (s : FqPpp) (h : ℕ) :
    s.storeDeficits.flow h = { s.flow h with deficit := int32 (s.flow h).deficit } := by
  cases hi : s.flowsIndices h with
  | none =>
    have hzero : int32 0 = 0 := by decide
    simp [FqPpp.flow, storeDeficits, hi, hzero]
  | some flow => simp [FqPpp.flow, storeDeficits, hi]

theorem storeDeficits_of_small (hs : s.Small) : s.storeDeficits = s := by
  obtain ⟨flowsIndices, tags, newFlows, oldFlows, arrivals, departures⟩ := s
  simp only [storeDeficits, FqPpp.mk.injEq, and_true]
  funext i
  cases hi : flowsIndices i with
  | none => rfl
  | some flow =>
    have hdeficit := hs.deficit i
    simp only [FqPpp.flow, hi, Option.getD_some] at hdeficit
    rw [Option.map_some, int32_of_range hdeficit]

theorem turn32_eq (hs : s.Listed) (hsmall : s.Small) (hq : config.quantum < 2147483648)
    (drops : ℕ) : s.turn32 config drops = some (s.turn config drops) := by
  have hstore : storeTurn (s.turn config drops) = s.turn config drops := by
    have hcase := turn_cases config s drops
    cases hturn : s.turn config drops with
    | again s' =>
      have hkept := turn_kept hs hsmall hq (hturn ▸ hcase)
      exact congrArg Turn.again (storeDeficits_of_small hkept.2)
    | done s' =>
      have hkept := turn_kept hs hsmall hq (hturn ▸ hcase)
      exact congrArg Turn.done (storeDeficits_of_small hkept.2)
  have hfits : s.overflows config drops = false := by
    unfold overflows
    cases hlists : s.newFlows ++ s.oldFlows with
    | nil => rfl
    | cons h rest =>
      have hrange := hsmall.deficit h
      have hquantum : int32 config.quantum = config.quantum := int32_of_range (by omega)
      dsimp only
      split_ifs with hd
      · rw [hquantum, int32_of_range (by omega)]
        simp
      · cases hdrop : (s.queue h).drop drops with
        | nil => rfl
        | cons item queue =>
          have hitem : item ∈ s.queue h :=
            (List.drop_suffix drops _).subset (hdrop ▸ List.mem_cons_self)
          have hsize := hsmall.size h item hitem
          have hneg : int32 (-item.size) = -item.size := int32_of_range (by omega)
          dsimp only
          rw [hneg, int32_of_range (by omega)]
          simp
  rw [turn32, hfits, hstore]
  rfl

theorem doDequeue32_eq (hs : s.Listed) (hsmall : s.Small) (hq : config.quantum < 2147483648)
    (turns : List ℕ) : s.doDequeue32 config turns = s.doDequeue config turns := by
  induction turns generalizing s with
  | nil => rfl
  | cons drops turns ih =>
    have hcase := turn_cases config s drops
    rw [doDequeue32, doDequeue, turn32_eq hs hsmall hq]
    cases hturn : s.turn config drops with
    | again s' =>
      rw [hturn] at hcase
      have hkept := turn_kept hs hsmall hq hcase
      exact ih hkept.1 hkept.2
    | done s' => rfl

end Width

section Runs

theorem Listed.start : start.Listed :=
  ⟨List.nodup_nil, fun _ => iff_of_false (fun hne => hne rfl) List.not_mem_nil,
    fun _ hne => absurd rfl hne⟩

theorem Small.start : start.Small :=
  ⟨fun _ => ⟨(by decide : -2147483648 ≤ (0 : ℤ)), (by decide : (0 : ℤ) < 2147483648)⟩,
    fun _ _ hitem => (List.not_mem_nil hitem).elim⟩

theorem Listed.activate (config : FqPppConfig) (hs : s.Listed) (h : ℕ) :
    (s.activate config h).Listed := by
  by_cases hstatus : (s.flow h).status = .inactive
  · have hnew : (s.activate config h).newFlows = s.newFlows ++ [h] := by
      rw [FqPpp.activate, if_pos hstatus]
    have hold : (s.activate config h).oldFlows = s.oldFlows := by
      rw [FqPpp.activate, if_pos hstatus]
      rfl
    have hperm : ((s.activate config h).newFlows ++ (s.activate config h).oldFlows).Perm
        (h :: (s.newFlows ++ s.oldFlows)) := by
      rw [hnew, hold, List.append_assoc, List.singleton_append]
      exact List.perm_middle
    have hmem : h ∉ s.newFlows ++ s.oldFlows := fun hmem => (hs.active h).mpr hmem hstatus
    refine ⟨hperm.nodup_iff.mpr (List.nodup_cons.mpr ⟨hmem, hs.nodup⟩), fun i => ?_,
      hs.busy.activate config h⟩
    rw [hperm.mem_iff, List.mem_cons]
    by_cases hi : i = h
    · rw [hi]
      exact iff_of_true (status_activate config s h) (.inl rfl)
    · rw [flow_activate_other config s hi, hs.active i]
      exact ⟨.inr, fun hor => hor.resolve_left hi⟩
  · have hflow : ∀ i, (s.activate config h).flow i = s.flow i := by
      intro i
      by_cases hi : i = h
      · rw [hi, flow_activate_same, if_neg hstatus]
      · exact flow_activate_other config s hi
    have hlists : (s.activate config h).newFlows ++ (s.activate config h).oldFlows =
        s.newFlows ++ s.oldFlows := by
      rw [FqPpp.activate, if_neg hstatus]
      rfl
    refine ⟨hlists ▸ hs.nodup, fun i => ?_, hs.busy.activate config h⟩
    rw [hflow, hlists]
    exact hs.active i

theorem Listed.append (hs : s.Listed) (hstatus : (s.flow h).status ≠ .inactive)
    (item : FqPppItem) : (s.append h item).Listed := by
  refine ⟨hs.nodup, fun i => ?_, hs.busy.append hstatus item⟩
  have hsame : ((s.append h item).flow i).status = (s.flow i).status := by
    by_cases hi : i = h
    · rw [hi, FqPpp.append, flow_setFlow_same]
    · rw [FqPpp.append, flow_setFlow_other s _ hi]
  rw [hsame]
  exact hs.active i

theorem Small.activate (hs : s.Small) (hq : config.quantum < 2147483648) (h : ℕ) :
    (s.activate config h).Small := by
  constructor
  · intro i
    by_cases hi : i = h
    · rw [hi, flow_activate_same]
      by_cases hstatus : (s.flow h).status = .inactive
      · rw [if_pos hstatus]
        dsimp only
        omega
      · rw [if_neg hstatus]
        exact hs.deficit h
    · rw [flow_activate_other config s hi]
      exact hs.deficit i
  · intro i
    rw [queue_activate]
    exact hs.size i

theorem Small.append (hs : s.Small) (item : FqPppItem) (hitem : item.size < 2147483648)
    (h : ℕ) : (s.append h item).Small := by
  constructor
  · intro i
    by_cases hi : i = h
    · rw [hi, FqPpp.append, flow_setFlow_same]
      exact hs.deficit h
    · rw [FqPpp.append, flow_setFlow_other s _ hi]
      exact hs.deficit i
  · intro i other hother
    by_cases hi : i = h
    · rw [hi, (append_joins s h item).same, List.mem_append, List.mem_singleton] at hother
      cases hother with
      | inl hold => exact hs.size h other hold
      | inr hnew => exact hnew ▸ hitem
    · rw [(append_joins s h item).other i hi] at hother
      exact hs.size i other hother

theorem doEnqueue_kept (hs : s.Listed) (hsmall : s.Small) (hq : config.quantum < 2147483648)
    (flowHash : Option ℕ) {size : ℕ} (hsize : size < 2147483648) (admitted : Bool) :
    (s.doEnqueue config flowHash size admitted).Listed ∧
      (s.doEnqueue config flowHash size admitted).Small := by
  let counted : FqPpp := { s with arrivals := s.arrivals + 1 }
  cases flowHash with
  | none =>
    show counted.Listed ∧ counted.Small
    exact ⟨⟨hs.nodup, hs.active, hs.busy⟩, hsmall.deficit, hsmall.size⟩
  | some f =>
    let h := (counted.classify config f).1
    let t := (counted.classify config f).2
    obtain ⟨tags, htags⟩ := classify_spec config counted f
    have ht : t = { counted with tags := tags } := htags
    have htListed : t.Listed := by
      rw [ht]
      exact ⟨hs.nodup, hs.active, hs.busy⟩
    have htSmall : t.Small := by
      rw [ht]
      exact ⟨hsmall.deficit, hsmall.size⟩
    have huListed := htListed.activate config h
    have huSmall := htSmall.activate hq h
    cases admitted with
    | false => exact ⟨huListed, huSmall⟩
    | true =>
      exact ⟨huListed.append (status_activate config t h) ⟨s.arrivals, f, size⟩,
        huSmall.append ⟨s.arrivals, f, size⟩ hsize h⟩

theorem doDequeue_kept {turns : List ℕ} (hs : s.Listed) (hsmall : s.Small)
    (hq : config.quantum < 2147483648) (hturns : s.doDequeue config turns = some s') :
    s'.Listed ∧ s'.Small ∧ (s'.departures = s.departures → ∀ h, s'.queue h = []) := by
  induction turns generalizing s with
  | nil => cases hturns
  | cons drops turns ih =>
    rw [doDequeue] at hturns
    have hcase := turn_cases config s drops
    cases hturn : s.turn config drops with
    | again t =>
      rw [hturn] at hcase hturns
      have hkept := turn_kept hs hsmall hq hcase
      obtain ⟨hlisted, hsmall', hempty⟩ := ih hkept.1 hkept.2 hturns
      refine ⟨hlisted, hsmall', fun hdep => hempty ?_⟩
      rw [hdep, (turn_again hturn).2]
    | done t =>
      rw [hturn] at hcase hturns
      have hkept := turn_kept hs hsmall hq hcase
      dsimp only at hturns
      split_ifs at hturns with hlast
      cases hturns
      refine ⟨hkept.1, hkept.2, fun hdep h => ?_⟩
      cases hcase with
      | idle hnew hold =>
        by_contra hne
        have hmem := (hs.active h).mp (hs.busy h hne)
        rw [hnew, hold] at hmem
        exact List.not_mem_nil hmem
      | send _ h rest item queue _ _ _ _ _ _ hdep' =>
        rw [hdep, List.self_eq_append_right] at hdep'
        cases hdep'

theorem Reaches.kept (hq : config.quantum < 2147483648) {es : List FqPppEvent}
    (hreach : (machine32 config).Reaches start es s) : s.Listed ∧ s.Small := by
  apply hreach.invariant (P := fun s => s.Listed ∧ s.Small) ⟨Listed.start, Small.start⟩
  intro t e ht he
  obtain ⟨hlisted, hsmall⟩ := ht
  cases e with
  | enqueue flowHash size admitted =>
    have hkept := doEnqueue_kept hlisted hsmall hq flowHash he admitted
    show (t.doEnqueue32 config flowHash size admitted).Listed ∧
      (t.doEnqueue32 config flowHash size admitted).Small
    rw [doEnqueue32, storeDeficits_of_small hkept.2]
    exact hkept
  | dequeue turns =>
    obtain ⟨t', ht'⟩ := Option.isSome_iff_exists.mp he
    show ((t.doDequeue32 config turns).getD t).Listed ∧ ((t.doDequeue32 config turns).getD t).Small
    rw [ht']
    rw [doDequeue32_eq hlisted hsmall hq] at ht'
    obtain ⟨hlisted', hsmall', _⟩ := doDequeue_kept hlisted hsmall hq ht'
    exact ⟨hlisted', hsmall'⟩

/-- In every state of every run the classes that are not inactive are in the lists, each once, as
are those with packets, and `DoDequeue` returns, without a packet only when none is left. -/
def RoundRobin (config : FqPppConfig) : Prop :=
  ∀ es s, (machine32 config).Reaches start es s →
    (∀ h, (s.flow h).status ≠ .inactive → (s.newFlows ++ s.oldFlows).count h = 1) ∧
    (∀ h, s.queue h ≠ [] → h ∈ s.newFlows ++ s.oldFlows) ∧
    ∀ drops : ℕ → ℕ, ∃ n s', s.doDequeue32 config ((List.range n).map drops) = some s' ∧
      (s'.departures = s.departures → ∀ h, s'.queue h = [])

def Stuck (s : FqPpp) : Prop :=
  ∃ h, s.newFlows ++ s.oldFlows = [h] ∧ (s.flow h).deficit ≤ 0

theorem Stuck.turn32 (hs : s.Stuck) (hq : config.quantum < 4294967296)
    (hlarge : 2147483648 ≤ config.quantum) (drops : ℕ) :
    s.turn32 config drops = none ∨ ∃ s', s.turn32 config drops = some (.again s') ∧ s'.Stuck := by
  obtain ⟨h, hlists, hd⟩ := hs
  by_cases hover : s.overflows config drops = true
  · exact .inl (by rw [FqPpp.turn32, if_pos hover])
  · right
    rw [FqPpp.turn32, if_neg hover]
    have hfits : int32 ((s.flow h).deficit + int32 config.quantum) =
        (s.flow h).deficit + int32 config.quantum := by
      simp only [overflows, hlists, if_pos hd, decide_eq_true_eq, not_not] at hover
      exact hover
    have hquantum : int32 config.quantum = config.quantum - 4294967296 := by
      unfold int32
      omega
    have hcase := turn_cases config s drops
    cases hturn : s.turn config drops with
    | again s' =>
      rw [hturn] at hcase
      refine ⟨s'.storeDeficits, rfl, h, ?_⟩
      cases hcase with
      | refill _ k rest status hlists' _ _ hreplace _ hnext _ =>
        rw [hlists'] at hlists
        obtain ⟨rfl, rfl⟩ := List.cons.inj hlists
        refine ⟨hnext, ?_⟩
        rw [storeDeficits_flow, hreplace.same]
        dsimp only
        unfold int32 at hfits ⊢
        omega
      | toOld _ k rest hnew hpos =>
        rw [hnew, List.cons_append] at hlists
        obtain ⟨rfl, _⟩ := List.cons.inj hlists
        omega
      | leave _ k rest hnew hold hpos =>
        rw [hnew, hold, List.nil_append] at hlists
        obtain ⟨rfl, _⟩ := List.cons.inj hlists
        omega
    | done s' =>
      rw [hturn] at hcase
      cases hcase with
      | idle hnew hold =>
        rw [hnew, hold] at hlists
        cases hlists
      | send _ k rest item queue hlists' hpos =>
        rw [hlists'] at hlists
        obtain ⟨rfl, _⟩ := List.cons.inj hlists
        omega

theorem Stuck.doDequeue32 (hs : s.Stuck) (hq : config.quantum < 4294967296)
    (hlarge : 2147483648 ≤ config.quantum) (turns : List ℕ) :
    s.doDequeue32 config turns = none := by
  induction turns generalizing s with
  | nil => rfl
  | cons drops turns ih =>
    rw [FqPpp.doDequeue32]
    cases hs.turn32 hq hlarge drops with
    | inl hnone => rw [hnone]
    | inr hagain =>
      obtain ⟨s', hs', hstuck⟩ := hagain
      rw [hs']
      exact ih hstuck

theorem Stuck.doEnqueue32 (config : FqPppConfig) (hq : config.quantum < 4294967296)
    (hlarge : 2147483648 ≤ config.quantum) (size : ℕ) :
    (start.doEnqueue32 config (some 0) size true).Stuck := by
  let counted : FqPpp := { start with arrivals := 1 }
  let h := (counted.classify config 0).1
  let t := (counted.classify config 0).2
  obtain ⟨tags, htags⟩ := classify_spec config counted 0
  have ht : t = { counted with tags := tags } := htags
  have hinactive : (t.flow h).status = .inactive := by
    rw [ht]
    rfl
  refine ⟨h, ?_, ?_⟩
  · show (t.activate config h).newFlows ++ (t.activate config h).oldFlows = [h]
    rw [activate, if_pos hinactive, ht]
    rfl
  · have hflow : (start.doEnqueue32 config (some 0) size true).flow h =
        ((t.activate config h).append h ⟨0, 0, size⟩).storeDeficits.flow h := rfl
    rw [hflow, storeDeficits_flow, append, flow_setFlow_same, flow_activate_same,
      if_pos hinactive]
    dsimp only
    unfold int32
    omega

theorem roundRobin_iff (hquantum : config.quantum < 4294967296) :
    RoundRobin config ↔ config.quantum < 2147483648 := by
  constructor
  · intro hall
    by_contra hlarge
    have hlarge := Nat.not_lt.mp hlarge
    have hsize : 100 < 2147483648 := by decide
    have hreach : (machine32 config).Reaches start [.enqueue (some 0) 100 true]
        (start.doEnqueue32 config (some 0) 100 true) :=
      .snoc (FqPppEvent.enqueue (some 0) 100 true) .nil hsize
    obtain ⟨n, s', hs', _⟩ := (hall _ _ hreach).2.2 fun _ => 0
    rw [(Stuck.doEnqueue32 config hquantum hlarge 100).doDequeue32 hquantum hlarge] at hs'
    cases hs'
  · intro hq es s hreach
    obtain ⟨hlisted, hsmall⟩ := Reaches.kept hq hreach
    refine ⟨fun h hactive => ?_, fun h hne => ?_, fun drops => ?_⟩
    · exact List.count_eq_one_of_mem hlisted.nodup ((hlisted.active h).mp hactive)
    · exact (hlisted.active h).mp (hlisted.busy h hne)
    · obtain ⟨n, s', hs'⟩ := doDequeue_ends config.quantum_pos drops
      refine ⟨n, s', ?_, (doDequeue_kept hlisted hsmall hq hs').2.2⟩
      rw [doDequeue32_eq hlisted hsmall hq, hs']

end Runs

def largeQuantum : FqPppConfig where
  flows := 1
  setWays := 1
  enableSetAssociativeHash := false
  quantum := 2147483648
  flows_pos := by decide
  setWays_pos := by decide
  quantum_pos := by decide
  flows_lt := by decide
  setWays_dvd := nofun

theorem roundRobin_twoSlots : RoundRobin twoSlots ↔ 100 < 2147483648 :=
  roundRobin_iff (by decide : twoSlots.quantum < 4294967296)

/-- The deficit of the only class is -2^31 after an arrival, and the first turn of `DoDequeue`
adds the same once more. -/
theorem roundRobin_largeQuantum :
    ¬ ∀ config : FqPppConfig, config.quantum < 4294967296 → RoundRobin config := by
  intro hall
  have hreach : (machine32 largeQuantum).Reaches start [.enqueue (some 0) 100 true]
      (start.doEnqueue32 largeQuantum (some 0) 100 true) :=
    .snoc (FqPppEvent.enqueue (some 0) 100 true) .nil (by decide)
  obtain ⟨n, s', hs', _⟩ := (hall largeQuantum (by decide) _ _ hreach).2.2 fun _ => 0
  cases n with
  | zero => cases hs'
  | succ n =>
    rw [List.range_succ_eq_map, List.map_cons, doDequeue32] at hs'
    have hnone :
        (start.doEnqueue32 largeQuantum (some 0) 100 true).turn32 largeQuantum 0 = none := by
      decide
    rw [hnone] at hs'
    cases hs'

end FqPpp
end NetGymSim.Gma

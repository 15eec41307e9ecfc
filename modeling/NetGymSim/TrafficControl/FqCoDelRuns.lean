import NetGymSim.Lib.KeyedSums
import NetGymSim.TrafficControl.FqCoDel

/-!
# The runs of `FqCoDelQueueDisc`

Every event keeps the counters of the flow queues and of the disc. With a quantum that is a
deficit, the lists have the active classes as in the FqPpp disc, and the deficits stay between
the largest packet below zero and the quantum, so that `DoDequeue` returns.
-/

namespace NetGymSim.TrafficControl
open NetGymSim.Lib
open NetGymSim.Gma (FqPppConfig FlowStatus FqPppFlow FqPppItem FqPpp)

namespace FqCoDel
variable {config : FqCoDelConfig} {maxPacket : ℕ} {s s' : FqCoDel} {h i : ℕ}
variable {flow : FqCoDelFlow} {qd qd' : CoDel} {item : QueueDiscItem}

structure Sound (maxPacket : ℕ) (s : FqCoDel) : Prop where
  discs : ∀ h, (s.flow h).queueDisc.Sound
  nodup : s.classes.Nodup
  created : ∀ h, h ∈ s.classes ↔ (s.flowsIndices h).isSome = true
  listed : ∀ h ∈ s.newFlows ++ s.oldFlows, h ∈ s.classes
  packets : s.nPackets = (s.classes.map fun h => (s.queue h).length).sum
  sizes : ∀ h, ∀ item ∈ s.queue h, 0 < item.size ∧ item.size ≤ maxPacket

theorem Sound.start (maxPacket : ℕ) : Sound maxPacket {} where
  discs _ := ⟨rfl, rfl⟩
  nodup := List.nodup_nil
  created _ := iff_of_false List.not_mem_nil Bool.false_ne_true
  listed _ hmem := hmem
  packets := rfl
  sizes _ _ hmem := (List.not_mem_nil hmem).elim

theorem Sound.mem_classes (hs : s.Sound maxPacket) (hne : s.queue h ≠ []) : h ∈ s.classes := by
  rw [hs.created]
  by_contra hnone
  apply hne
  rw [FqCoDel.queue, FqCoDel.flow, Option.not_isSome_iff_eq_none.mp hnone]
  rfl

theorem Sound.replace (hs : s.Sound maxPacket) (hr : s.Replaces s' h flow)
    (hmem : h ∈ s.classes) (hdisc : flow.queueDisc.Sound)
    (hsizes : ∀ item ∈ flow.queueDisc.queue, 0 < item.size ∧ item.size ≤ maxPacket)
    (hlists : ∀ i ∈ s'.newFlows ++ s'.oldFlows, i = h ∨ i ∈ s.newFlows ++ s.oldFlows) :
    s'.Sound maxPacket := by
  have hqueue : s'.queue h = flow.queueDisc.queue := by rw [FqCoDel.queue, hr.same]
  have hother : ∀ i, i ≠ h → s'.queue i = s.queue i := by
    intro i hi
    rw [FqCoDel.queue, hr.other i hi]
    rfl
  refine ⟨fun i => ?_, hr.classes ▸ hs.nodup, fun i => ?_, fun i hi => ?_, ?_, fun i => ?_⟩
  · by_cases hi : i = h
    · rw [hi, hr.same]
      exact hdisc
    · rw [hr.other i hi]
      exact hs.discs i
  · rw [hr.created, hr.classes, ← hs.created]
    exact ⟨.inr, fun hor => hor.elim (fun heq => heq ▸ hmem) id⟩
  · rw [hr.classes]
    exact (hlists i hi).elim (fun heq => heq ▸ hmem) (hs.listed i)
  · have hsum := sum_map_exchange hs.nodup hmem (f := fun i => (s'.queue i).length)
      (g := fun i => (s.queue i).length) fun i hi => congrArg List.length (hother i hi)
    have hold : (s.flow h).queueDisc.nPackets = (s.queue h).length := (hs.discs h).packets
    have hnew := hdisc.packets
    have htotal := hs.packets
    have hpackets := hr.packets
    rw [hr.classes]
    rw [hqueue] at hsum
    omega
  · by_cases hi : i = h
    · rw [hi, hqueue]
      exact hsizes
    · rw [hother i hi]
      exact hs.sizes i

section Dequeue

theorem TurnCase.sound {t : Turn FqCoDel} (ht : TurnCase config s t) (hs : s.Sound maxPacket) :
    match t with
    | .again s' | .done s' => s'.Sound maxPacket := by
  have hfront : ∀ {h rest}, s.newFlows ++ s.oldFlows = h :: rest → h ∈ s.classes := by
    intro h rest hlists
    exact hs.listed h (hlists ▸ List.mem_cons_self)
  cases ht with
  | idle => exact hs
  | refill s' h rest status hlists hd hstatus hreplace hnew' hlists' hdep =>
    apply hs.replace hreplace (hfront hlists) (hs.discs h) (hs.sizes h)
    intro i hi
    rw [hlists', List.mem_append, List.mem_singleton] at hi
    rw [hlists]
    exact hi.symm.imp id (List.mem_cons_of_mem h)
  | toOld s' h rest qd hnew hd hempty hqueue hsound hreplace hnew' hold' hdep =>
    have hlists : s.newFlows ++ s.oldFlows = h :: (rest ++ s.oldFlows) := by
      rw [hnew, List.cons_append]
    apply hs.replace hreplace (hfront hlists) hsound
    · dsimp only
      rw [hqueue]
      exact fun item hitem => (List.not_mem_nil hitem).elim
    · intro i hi
      rw [hnew', hold', ← List.append_assoc, List.mem_append, List.mem_singleton] at hi
      rw [hlists]
      exact hi.symm.imp id (List.mem_cons_of_mem h)
  | leave s' h rest qd hnew hold hd hempty hqueue hsound hreplace hnew' hold' hdep =>
    have hlists : s.newFlows ++ s.oldFlows = h :: rest := by rw [hnew, hold, List.nil_append]
    apply hs.replace hreplace (hfront hlists) hsound
    · dsimp only
      rw [hqueue]
      exact fun item hitem => (List.not_mem_nil hitem).elim
    · intro i hi
      rw [hnew', hold', List.nil_append] at hi
      rw [hlists]
      exact .inr (List.mem_cons_of_mem h hi)
  | send s' h rest qd item hlists hd htook hreplace hnew' hold' hdep =>
    have hsizes := htook.sizes (P := fun n => 0 < n ∧ n ≤ maxPacket) (hs.sizes h)
    apply hs.replace hreplace (hfront hlists) htook.sound hsizes.2
    intro i hi
    rw [hnew', hold'] at hi
    exact .inr hi

theorem Replaces.nPackets_le (hr : s.Replaces s' h flow)
    (hle : flow.queueDisc.nPackets ≤ (s.flow h).queueDisc.nPackets) :
    s'.nPackets ≤ s.nPackets := by
  have hpackets := hr.packets
  omega

theorem TurnCase.nPackets_le {t : Turn FqCoDel} (ht : TurnCase config s t)
    (hs : s.Sound maxPacket) :
    match t with
    | .again s' | .done s' => s'.nPackets ≤ s.nPackets := by
  cases ht with
  | idle => exact le_refl _
  | refill s' h rest status hlists hd hstatus hreplace =>
    exact hreplace.nPackets_le (le_refl _)
  | toOld s' h rest qd hnew hd hempty hqueue hsound hreplace =>
    apply hreplace.nPackets_le
    rw [hsound.packets, hqueue]
    exact Nat.zero_le _
  | leave s' h rest qd hnew hold hd hempty hqueue hsound hreplace =>
    apply hreplace.nPackets_le
    rw [hsound.packets, hqueue]
    exact Nat.zero_le _
  | send s' h rest qd item hlists hd htook hreplace =>
    obtain ⟨dropped, old, hall, -⟩ := htook.queue
    apply hreplace.nPackets_le
    rw [htook.sound.packets, (hs.discs h).packets, hall, List.length_append, List.length_cons]
    omega

theorem doDequeue_rule {P Q : FqCoDel → Prop}
    (again : ∀ s s', P s → s.turn config = some (.again s') → P s')
    (done : ∀ s s', P s → s.turn config = some (.done s') → Q s') {turns : ℕ} (hs : P s)
    (hturns : s.doDequeue config turns = some s') : Q s' := by
  induction turns generalizing s with
  | zero => cases hturns
  | succ turns ih =>
    rw [doDequeue] at hturns
    cases ht : s.turn config with
    | none =>
      rw [ht] at hturns
      cases hturns
    | some t =>
      rw [ht] at hturns
      cases t with
      | again t => exact ih (again s t hs ht) hturns
      | done t =>
        obtain rfl := Option.some.inj hturns
        exact done s _ hs ht

theorem Sound.doDequeue {turns : ℕ} (hs : s.Sound maxPacket)
    (hturns : s.doDequeue config turns = some s') :
    s'.Sound maxPacket ∧ s'.nPackets ≤ s.nPackets := by
  apply doDequeue_rule (P := fun t => t.Sound maxPacket ∧ t.nPackets ≤ s.nPackets)
    (Q := fun t => t.Sound maxPacket ∧ t.nPackets ≤ s.nPackets) _ _ ⟨hs, le_refl _⟩ hturns
  · intro t t' ht hturn
    have hcase := turn_cases ht.1.discs hturn
    exact ⟨hcase.sound ht.1, (hcase.nPackets_le ht.1).trans ht.2⟩
  · intro t t' ht hturn
    have hcase := turn_cases ht.1.discs hturn
    exact ⟨hcase.sound ht.1, (hcase.nPackets_le ht.1).trans ht.2⟩

end Dequeue

section Enqueue

theorem classify_spec (config : FqCoDelConfig) (s : FqCoDel) (f : ℕ) :
    ∃ tags, (s.classify config f).2 = { s with tags } := by
  unfold classify
  cases config.enableSetAssociativeHash with
  | false => exact ⟨s.tags, rfl⟩
  | true => exact ⟨_, rfl⟩

theorem create_flow (s : FqCoDel) (h i : ℕ) : (s.create h).flow i = s.flow i := by
  unfold create
  cases hi : s.flowsIndices h with
  | none =>
    show (s.setFlow h {}).flow i = s.flow i
    by_cases heq : i = h
    · rw [heq, flow_setFlow_same, FqCoDel.flow, hi]
      rfl
    · exact flow_setFlow_other s _ heq
  | some flow => rfl

theorem create_lists (s : FqCoDel) (h : ℕ) :
    (s.create h).newFlows = s.newFlows ∧ (s.create h).oldFlows = s.oldFlows := by
  unfold create
  cases s.flowsIndices h with
  | none => exact ⟨rfl, rfl⟩
  | some flow => exact ⟨rfl, rfl⟩

theorem create_nPackets (s : FqCoDel) (h : ℕ) : (s.create h).nPackets = s.nPackets := by
  unfold create
  cases s.flowsIndices h with
  | none => rfl
  | some flow => rfl

theorem Sound.create (hs : s.Sound maxPacket) (h : ℕ) :
    (s.create h).Sound maxPacket ∧ h ∈ (s.create h).classes := by
  have hqueue : ∀ i, (s.create h).queue i = s.queue i := by
    intro i
    rw [FqCoDel.queue, create_flow]
    rfl
  cases hi : s.flowsIndices h with
  | some flow =>
    have hsame : s.create h = s := by rw [FqCoDel.create, hi]
    rw [hsame, hs.created, hi]
    exact ⟨hs, rfl⟩
  | none =>
    have hnew : h ∉ s.classes := by
      rw [hs.created, hi]
      exact Bool.false_ne_true
    have hclasses : (s.create h).classes = s.classes ++ [h] := by rw [FqCoDel.create, hi]
    have hflows : (s.create h).flowsIndices = (s.setFlow h {}).flowsIndices := by
      rw [FqCoDel.create, hi]
    have hempty : s.queue h = [] := by
      by_contra hne
      exact hnew (hs.mem_classes hne)
    refine ⟨⟨fun i => ?_, ?_, fun i => ?_, fun i hmem => ?_, ?_, fun i => ?_⟩, ?_⟩
    · rw [create_flow]
      exact hs.discs i
    · rw [hclasses]
      exact List.nodup_append.mpr ⟨hs.nodup, List.nodup_singleton h, fun a ha b hb heq =>
        hnew (List.mem_singleton.mp hb ▸ heq ▸ ha)⟩
    · rw [hclasses, hflows, List.mem_append, List.mem_singleton, hs.created, setFlow]
      by_cases heq : i = h
      · simp [heq]
      · simp [heq]
    · rw [(create_lists s h).1, (create_lists s h).2] at hmem
      rw [hclasses]
      exact List.mem_append_left _ (hs.listed i hmem)
    · rw [create_nPackets, hclasses, List.map_append, List.sum_append, List.map_singleton,
        List.sum_singleton, hqueue, hempty, hs.packets, List.length_nil, Nat.add_zero]
      simp only [hqueue]
    · rw [hqueue]
      exact hs.sizes i
    · rw [hclasses]
      exact List.mem_append_right _ List.mem_cons_self

theorem activate_nPackets (config : FqCoDelConfig) (s : FqCoDel) (h : ℕ) :
    (s.activate config h).nPackets = s.nPackets := by
  unfold activate
  dsimp only
  split_ifs
  · rfl
  · rfl

theorem Sound.activate (hs : s.Sound maxPacket) (config : FqCoDelConfig)
    (hmem : h ∈ s.classes) :
    (s.activate config h).Sound maxPacket ∧ (s.activate config h).classes = s.classes := by
  unfold FqCoDel.activate
  dsimp only
  split_ifs with hinactive
  · refine ⟨hs.replace (.of_setFlow rfl rfl (Nat.add_sub_cancel _ _).symm) hmem (hs.discs h)
      (hs.sizes h) fun i hi => ?_, rfl⟩
    rw [List.append_assoc, List.singleton_append, List.mem_append, List.mem_cons] at hi
    rw [List.mem_append]
    tauto
  · exact ⟨hs, rfl⟩

theorem append_replaces (config : FqCoDelConfig) (s : FqCoDel) (h : ℕ) (item : QueueDiscItem) :
    s.Replaces (s.append config h item) h { s.flow h with
      queueDisc := ((s.flow h).queueDisc.enqueue config.codel
        { item with timeStamp := s.now }).2 } := .of_setFlow rfl rfl rfl

theorem Sound.append (hs : s.Sound maxPacket) (hmem : h ∈ s.classes)
    (hitem : 0 < item.size ∧ item.size ≤ maxPacket) :
    (s.append config h item).Sound maxPacket := by
  obtain ⟨hsound, hqueue⟩ :=
    CoDel.enqueue_spec (hs.discs h) config.codel { item with timeStamp := s.now }
  apply hs.replace (append_replaces config s h item) hmem hsound
  · dsimp only
    rw [hqueue]
    intro other hother
    split_ifs at hother
    · rw [List.mem_append, List.mem_singleton] at hother
      exact hother.elim (hs.sizes h other) fun heq => heq ▸ hitem
    · exact hs.sizes h other hother
  · exact fun i hi => .inr hi

theorem Sound.place (hs : s.Sound maxPacket) (config : FqCoDelConfig) (flowHash : ℕ)
    (hitem : 0 < item.size ∧ item.size ≤ maxPacket) :
    (s.place config flowHash item).Sound maxPacket ∧
      (s.place config flowHash item).classes ≠ [] ∧
      (s.place config flowHash item).nPackets ≤ s.nPackets + 1 := by
  let h := (s.classify config flowHash).1
  let looked := (s.classify config flowHash).2
  let active := (looked.create h).activate config h
  obtain ⟨tags, htags⟩ := classify_spec config s flowHash
  have hlooked : looked.Sound maxPacket := by
    show (s.classify config flowHash).2.Sound maxPacket
    rw [htags]
    exact ⟨hs.discs, hs.nodup, hs.created, hs.listed, hs.packets, hs.sizes⟩
  obtain ⟨hcreated, hmem⟩ := hlooked.create h
  obtain ⟨hactive, hclasses⟩ := hcreated.activate config hmem
  have hmem' : h ∈ active.classes := hclasses ▸ hmem
  refine ⟨hactive.append hmem' hitem, ?_, ?_⟩
  · have hsame := (append_replaces config active h item).classes
    show (active.append config h item).classes ≠ []
    rw [hsame]
    exact List.ne_nil_of_mem hmem'
  · have hsame := (append_replaces config active h item).packets
    have hmore : ((active.flow h).queueDisc.enqueue config.codel
        { item with timeStamp := active.now }).2.nPackets ≤
          (active.flow h).queueDisc.nPackets + 1 := by
      unfold CoDel.enqueue
      split_ifs
      · exact Nat.le_succ _
      · exact le_refl _
    have hpackets : active.nPackets = s.nPackets := by
      show ((looked.create h).activate config h).nPackets = s.nPackets
      rw [activate_nPackets, create_nPackets]
      show (s.classify config flowHash).2.nPackets = s.nPackets
      rw [htags]
    show (active.append config h item).nPackets ≤ s.nPackets + 1
    rw [hsame, hpackets]
    dsimp only
    omega

theorem dropFront_spec {threshold fuel count len : ℕ} (hqd : qd.Sound)
    (hdrop : dropFront config threshold fuel count len qd = some qd') :
    qd'.Sound ∧ ∃ dropped, dropped ≠ [] ∧ qd.queue = dropped ++ qd'.queue := by
  induction fuel generalizing count len qd with
  | zero => cases hdrop
  | succ fuel ih =>
    rw [dropFront] at hdrop
    cases hqueue : qd.queue with
    | nil =>
      rw [CoDel.pop_empty hqueue] at hdrop
      cases hdrop
    | cons item queue =>
      obtain ⟨next, hpop, hnext, hsound, -⟩ := CoDel.pop_cons hqd hqueue
      rw [hpop] at hdrop
      dsimp only at hdrop
      split_ifs at hdrop
      · obtain ⟨hsound', dropped, -, hall⟩ := ih hsound hdrop
        refine ⟨hsound', item :: dropped, List.cons_ne_nil item dropped, ?_⟩
        rw [← hnext, hall, List.cons_append]
      · obtain rfl := Option.some.inj hdrop
        refine ⟨hsound, [item], List.cons_ne_nil item [], ?_⟩
        rw [hnext, List.singleton_append]

theorem foldl_largest (f : ℕ → ℕ) (keys : List ℕ) (best : ℕ × ℕ) :
    let r := keys.foldl (fun best k => if f k > best.1 then (f k, k) else best) best
    best.1 ≤ r.1 ∧ (∀ k ∈ keys, f k ≤ r.1) ∧ (r = best ∨ r.2 ∈ keys ∧ f r.2 = r.1) := by
  induction keys generalizing best with
  | nil => exact ⟨le_refl _, fun _ hk => (List.not_mem_nil hk).elim, .inl rfl⟩
  | cons k keys ih =>
    rw [List.foldl_cons]
    by_cases hmore : f k > best.1
    · rw [if_pos hmore]
      obtain ⟨hle, hall, hfound⟩ := ih (f k, k)
      refine ⟨hmore.le.trans hle, ?_, ?_⟩
      · rw [List.forall_mem_cons]
        exact ⟨hle, hall⟩
      · cases hfound with
        | inl hsame =>
          rw [hsame]
          exact .inr ⟨List.mem_cons_self, rfl⟩
        | inr hlater => exact .inr ⟨List.mem_cons_of_mem k hlater.1, hlater.2⟩
    · rw [if_neg hmore]
      obtain ⟨hle, hall, hfound⟩ := ih best
      refine ⟨hle, ?_, ?_⟩
      · rw [List.forall_mem_cons]
        exact ⟨(Nat.not_lt.mp hmore).trans hle, hall⟩
      · exact hfound.imp id fun hlater => ⟨List.mem_cons_of_mem k hlater.1, hlater.2⟩

theorem fattest_spec (hne : s.classes ≠ []) :
    s.fattest.2 ∈ s.classes ∧ (s.flow s.fattest.2).queueDisc.nBytes = s.fattest.1 ∧
      ∀ h ∈ s.classes, (s.flow h).queueDisc.nBytes ≤ s.fattest.1 := by
  obtain ⟨-, hall, hfound⟩ :=
    foldl_largest (fun h => (s.flow h).queueDisc.nBytes) s.classes (0, s.classes.headD 0)
  cases hfound with
  | inr hlater => exact ⟨hlater.1, hlater.2, hall⟩
  | inl hsame =>
    have hfirst : s.fattest = (0, s.classes.headD 0) := hsame
    have hmem : s.classes.headD 0 ∈ s.classes := by
      obtain ⟨h, rest, hlist⟩ := List.exists_cons_of_ne_nil hne
      rw [hlist]
      exact List.mem_cons_self
    have hzero := hall _ hmem
    rw [hsame] at hall hzero
    rw [hfirst]
    exact ⟨hmem, Nat.le_zero.mp hzero, hall⟩

structure Drops (s s' : FqCoDel) (dropped : List QueueDiscItem) : Prop where
  replaces : ∃ qd, qd.Sound ∧ s.Replaces s' s.fattest.2 { s.flow s.fattest.2 with queueDisc := qd }
  queue : s.queue s.fattest.2 = dropped ++ s'.queue s.fattest.2
  newFlows : s'.newFlows = s.newFlows
  oldFlows : s'.oldFlows = s.oldFlows
  departures : s'.departures = s.departures

theorem fqCoDelDrop_eq (config : FqCoDelConfig) (s : FqCoDel) :
    s.fqCoDelDrop config =
      (dropFront config (s.fattest.1 >>> 1) ((s.queue s.fattest.2).length + 1) 0 0
        (s.flow s.fattest.2).queueDisc).map (s.setQueueDisc s.fattest.2) := rfl

theorem fqCoDelDrop_spec (hs : s.Sound maxPacket) (hdrop : s.fqCoDelDrop config = some s') :
    ∃ dropped, dropped ≠ [] ∧ s.Drops s' dropped := by
  rw [fqCoDelDrop_eq] at hdrop
  obtain ⟨qd, hfront, rfl⟩ := Option.map_eq_some_iff.mp hdrop
  obtain ⟨hsound, dropped, hne, hall⟩ := dropFront_spec (hs.discs _) hfront
  refine ⟨dropped, hne, ⟨qd, hsound, .of_setFlow rfl rfl rfl⟩, ?_, rfl, rfl, rfl⟩
  rw [FqCoDel.queue, FqCoDel.queue, hall, flow_setQueueDisc_same]

theorem Sound.drops {dropped : List QueueDiscItem} (hs : s.Sound maxPacket)
    (hne : s.classes ≠ []) (hdrops : s.Drops s' dropped) : s'.Sound maxPacket := by
  obtain ⟨qd, hsound, hreplaces⟩ := hdrops.replaces
  have hqueue := hdrops.queue
  rw [FqCoDel.queue, FqCoDel.queue, hreplaces.same] at hqueue
  apply hs.replace hreplaces (fattest_spec hne).1 hsound
  · intro item hitem
    apply hs.sizes s.fattest.2
    rw [FqCoDel.queue, hqueue]
    exact List.mem_append_right _ hitem
  · rw [hdrops.newFlows, hdrops.oldFlows]
    exact fun i hi => .inr hi

theorem Drops.nPackets_lt {dropped : List QueueDiscItem} (hs : s.Sound maxPacket)
    (hne : s.classes ≠ []) (hdropped : dropped ≠ []) (hdrops : s.Drops s' dropped) :
    s'.nPackets < s.nPackets := by
  obtain ⟨qd, hsound, hreplaces⟩ := hdrops.replaces
  have hpackets := hreplaces.packets
  have hqueue := congrArg List.length hdrops.queue
  rw [FqCoDel.queue, FqCoDel.queue, hreplaces.same, List.length_append] at hqueue
  have hlength := List.length_pos_of_ne_nil hdropped
  have hold := (hs.discs s.fattest.2).packets
  have hsum := hs.packets
  have hle : (s.queue s.fattest.2).length ≤ (s.classes.map fun h => (s.queue h).length).sum :=
    Nat.le.intro (List.sum_map_erase (fun h => (s.queue h).length) (fattest_spec hne).1)
  have hnew := hsound.packets
  rw [FqCoDel.queue] at hle
  dsimp only at hpackets hqueue
  omega

theorem Sound.doEnqueue {flowHash : Option ℕ} (hs : s.Sound maxPacket)
    (hlimit : s.nPackets ≤ config.maxSize) (hitem : 0 < item.size ∧ item.size ≤ maxPacket)
    (henqueue : s.doEnqueue config flowHash item = some s') :
    s'.Sound maxPacket ∧ s'.nPackets ≤ config.maxSize := by
  cases flowHash with
  | none =>
    obtain rfl := Option.some.inj henqueue
    exact ⟨hs, hlimit⟩
  | some flowHash =>
    obtain ⟨hplaced, hne, hmore⟩ := hs.place config flowHash hitem
    rw [FqCoDel.doEnqueue] at henqueue
    split_ifs at henqueue with hover
    · obtain ⟨dropped, hdropped, hdrops⟩ := fqCoDelDrop_spec hplaced henqueue
      have hless := hdrops.nPackets_lt hplaced hne hdropped
      exact ⟨hplaced.drops hne hdrops, by omega⟩
    · obtain rfl := Option.some.inj henqueue
      exact ⟨hplaced, Nat.not_lt.mp hover⟩

end Enqueue

theorem Reaches.sound {es : List FqCoDelEvent}
    (hreach : (machine config maxPacket).Reaches {} es s) :
    s.Sound maxPacket ∧ s.nPackets ≤ config.maxSize := by
  apply hreach.invariant (P := fun s => s.Sound maxPacket ∧ s.nPackets ≤ config.maxSize)
  · exact ⟨Sound.start maxPacket, Nat.zero_le _⟩
  · intro t e ht he
    obtain ⟨hsound, hlimit⟩ := ht
    have hstep := step_of_enabled he
    cases e with
    | enqueue flowHash item => exact hsound.doEnqueue hlimit (he.1 item rfl) hstep
    | dequeue turns =>
      obtain ⟨hsound', hle⟩ := hsound.doDequeue hstep
      exact ⟨hsound', hle.trans hlimit⟩
    | wait time =>
      exact ⟨⟨hsound.discs, hsound.nodup, hsound.created, hsound.listed, hsound.packets,
        hsound.sizes⟩, hlimit⟩

end FqCoDel
end NetGymSim.TrafficControl
